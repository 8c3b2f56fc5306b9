import Mathlib.Data.Fintype.Pigeonhole
import Mathlib.Data.List.Chain
import Mathlib.Data.Set.Finite.Basic
import Mathlib.Logic.Relation
import Citator.Proofs.RefGraph.Neighbours

/-!
# `Citator.Proofs.RefGraph.Cycle` — what remains after pruning is what leads to a cycle

Pruning takes away the edges whose head is a dead end. Edges are *endless* if there are none such
among them, and pruning as often as there are edges leaves the largest endless part. Endless edges
can be followed for ever, and since there are only so many of them one is followed twice: there is a
cycle. The other way round, the edges that lead to a node on a cycle are endless, so they remain.

So `hasCycle` is right about the numbers of the nodes, for every graph. In a well-formed graph a file
has one number, and it is right about the files. In the graph of a tree it is right about the tree: a cycle
is a chain of links, taken from anywhere in the tree, that comes back to the file it starts from.
-/

namespace Citator.RefGraph

open Relation (TransGen ReflTransGen)

variable {edges : List (Nat × Nat)} {i j n : Nat}

/-- An edge leads from one node to another. -/
def Leads (edges : List (Nat × Nat)) (i j : Nat) : Prop := (i, j) ∈ edges

/-- No edge leads to a dead end. -/
def Endless (edges : List (Nat × Nat)) : Prop := ∀ e ∈ edges, ∃ k, Leads edges e.2 k

/-! ## 1. Pruning -/

theorem mem_prune_iff {e : Nat × Nat} : e ∈ prune edges ↔ e ∈ edges ∧ ∃ k, Leads edges e.2 k := by
  unfold prune Leads
  simp only [List.mem_filter, testBit_tails, List.any_eq_true, beq_iff_eq]
  refine and_congr_right fun _ => ?_
  constructor
  · rintro ⟨⟨a, b⟩, hmem, rfl⟩
    exact ⟨b, hmem⟩
  · rintro ⟨k, hk⟩
    exact ⟨_, hk, rfl⟩

theorem prune_sublist (edges : List (Nat × Nat)) : (prune edges).Sublist edges :=
  List.filter_sublist

theorem pruned_succ (n : Nat) (edges : List (Nat × Nat)) :
    pruned (n + 1) edges =
      if (prune edges).length = edges.length then edges else pruned n (prune edges) := rfl

theorem pruned_sublist (n : Nat) (edges : List (Nat × Nat)) : (pruned n edges).Sublist edges := by
  induction n generalizing edges with
  | zero => exact List.Sublist.refl _
  | succ n ih =>
    rw [pruned_succ]
    split
    · exact List.Sublist.refl _
    · exact (ih _).trans (prune_sublist edges)

/-- Every pruning that changes anything takes an edge away, so there are enough of them. -/
theorem endless_pruned (h : edges.length ≤ n) : Endless (pruned n edges) := by
  induction n generalizing edges with
  | zero =>
    rw [List.eq_nil_of_length_eq_zero (Nat.le_zero.mp h)]
    exact fun e he => absurd he (by simp [pruned])
  | succ n ih =>
    rw [pruned_succ]
    split
    · next hlen =>
      -- nothing was pruned
      intro e he
      rw [← (prune_sublist edges).eq_of_length hlen] at he
      exact (mem_prune_iff.mp he).2
    · next hlen =>
      have hle := (prune_sublist edges).length_le
      exact ih (by omega)

/-- What is endless is never pruned. -/
theorem mem_pruned {P : Nat × Nat → Prop} (hmem : ∀ e, P e → e ∈ edges)
    (hnext : ∀ e, P e → ∃ k, P (e.2, k)) (n : Nat) : ∀ e, P e → e ∈ pruned n edges := by
  induction n generalizing edges with
  | zero => exact hmem
  | succ n ih =>
    rw [pruned_succ]
    split
    · exact hmem
    · refine ih fun e he => mem_prune_iff.mpr ⟨hmem e he, ?_⟩
      obtain ⟨k, hk⟩ := hnext e he
      exact ⟨k, hmem _ hk⟩

/-! ## 2. Endless edges and cycles -/

/-- An endless list of edges, if there is an edge in it, has a cycle: some edge comes up twice when
they are followed. -/
theorem exists_cycle (h : Endless edges) (hne : edges ≠ []) : ∃ i, TransGen (Leads edges) i i := by
  have hfinite : Finite {e // e ∈ edges} := (List.finite_toSet edges).to_subtype
  have hnext : ∀ e : {e // e ∈ edges}, ∃ e' : {e // e ∈ edges}, e'.1.1 = e.1.2 := by
    intro e
    obtain ⟨k, hk⟩ := h e.1 e.2
    exact ⟨⟨_, hk⟩, rfl⟩
  choose next heq using hnext
  have hleads : ∀ e : {e // e ∈ edges}, Leads edges e.1.1 (next e).1.1 := by
    intro e
    rw [heq]
    exact e.2
  -- following `k + 1` edges is a chain of references
  have hchain : ∀ (k : Nat) (e : {e // e ∈ edges}),
      TransGen (Leads edges) e.1.1 (next^[k + 1] e).1.1 := by
    intro k
    induction k with
    | zero => exact fun e => .single (hleads e)
    | succ k ih =>
      intro e
      rw [Function.iterate_succ_apply]
      exact .head (hleads e) (ih (next e))
  obtain ⟨first, hfirst⟩ := List.exists_mem_of_ne_nil edges hne
  obtain ⟨m, n, hmn, hsame⟩ :=
    Finite.exists_ne_map_eq_of_infinite fun k => next^[k] (⟨first, hfirst⟩ : {e // e ∈ edges})
  have hreturns : ∀ {m n : Nat}, m < n → next^[m] ⟨first, hfirst⟩ = next^[n] ⟨first, hfirst⟩ →
      ∃ i, TransGen (Leads edges) i i := by
    intro m n hlt hsame
    obtain ⟨k, rfl⟩ : ∃ k, n = k + 1 + m := ⟨n - m - 1, by omega⟩
    have hback := hchain k (next^[m] ⟨first, hfirst⟩)
    rw [← Function.iterate_add_apply, ← hsame] at hback
    exact ⟨_, hback⟩
  rcases Nat.lt_or_gt_of_ne hmn with hlt | hlt
  · exact hreturns hlt hsame
  · exact hreturns hlt hsame.symm

/-- The edges that lead to a node on a cycle are endless, so they remain. -/
theorem mem_pruned_of_cycle (hcycle : TransGen (Leads edges) i i) (n : Nat) :
    ∃ e, e ∈ pruned n edges := by
  obtain ⟨j, hj, hback⟩ := TransGen.head'_iff.mp hcycle
  refine ⟨(i, j), mem_pruned (P := fun e => e ∈ edges ∧ ReflTransGen (Leads edges) e.2 i)
    (fun e he => he.1) ?_ n _ ⟨hj, hback⟩⟩
  rintro e ⟨-, hleads⟩
  -- from the head of the edge the cycle is reached, and gone through once more
  obtain ⟨k, hk, hrest⟩ := TransGen.head'_iff.mp (TransGen.trans_right hleads hcycle)
  exact ⟨k, hk, hrest⟩

/-- **A cycle of nodes is found, and nothing else.** -/
theorem hasCycle_iff_exists (g : RefGraph) :
    g.hasCycle = true ↔ ∃ i, TransGen (Leads g.edges) i i := by
  unfold hasCycle
  rw [Bool.not_eq_true', List.isEmpty_eq_false_iff]
  constructor
  · intro hne
    obtain ⟨i, hcycle⟩ := exists_cycle (endless_pruned (Nat.le_refl g.edges.length)) hne
    exact ⟨i, TransGen.mono (fun a b hab => (pruned_sublist _ _).subset hab) i i hcycle⟩
  · rintro ⟨i, hcycle⟩
    obtain ⟨e, he⟩ := mem_pruned_of_cycle hcycle g.edges.length
    exact List.ne_nil_of_mem he

/-! ## 3. Cycles of files -/

variable {g : RefGraph} {p q : Path}

theorem WellFormed.eq_of_path? (h : g.WellFormed) (hi : g.path? i = some p)
    (hj : g.path? j = some p) : i = j :=
  h.eq_of_at ⟨p, hi, Path.Same.refl p⟩ ⟨p, hj, Path.Same.refl p⟩

theorem WellFormed.exists_path? (h : g.WellFormed) (hij : Leads g.edges i j) :
    ∃ p q, g.path? i = some p ∧ g.path? j = some q ∧ g.HasEdge p q := by
  obtain ⟨hi, hj⟩ := h.ends _ hij
  have hpi := List.getElem?_eq_getElem hi
  have hpj := List.getElem?_eq_getElem hj
  exact ⟨_, _, hpi, hpj, i, j, hij, hpi, hpj⟩

theorem WellFormed.transGen_hasEdge (h : g.WellFormed) (hij : TransGen (Leads g.edges) i j) :
    ∃ p q, g.path? i = some p ∧ g.path? j = some q ∧ TransGen g.HasEdge p q := by
  induction hij with
  | single hij =>
    obtain ⟨p, q, hp, hq, hedge⟩ := h.exists_path? hij
    exact ⟨p, q, hp, hq, .single hedge⟩
  | tail _ hjk ih =>
    obtain ⟨p, q, hp, hq, hchain⟩ := ih
    obtain ⟨q', r, hq', hr, hedge⟩ := h.exists_path? hjk
    obtain rfl : q = q' := Option.some.inj (hq.symm.trans hq')
    exact ⟨p, r, hp, hr, .tail hchain hedge⟩

theorem WellFormed.transGen_leads (h : g.WellFormed) (hpq : TransGen g.HasEdge p q) :
    ∃ i j, g.path? i = some p ∧ g.path? j = some q ∧ TransGen (Leads g.edges) i j := by
  induction hpq with
  | single hpq =>
    obtain ⟨i, j, hij, hi, hj⟩ := hpq
    exact ⟨i, j, hi, hj, .single hij⟩
  | tail _ hqr ih =>
    obtain ⟨i, j, hi, hj, hchain⟩ := ih
    obtain ⟨j', k, hjk, hj', hk⟩ := hqr
    obtain rfl := h.eq_of_path? hj hj'
    exact ⟨i, k, hi, hk, .tail hchain hjk⟩

/-- **A graph has a cycle if and only if some file refers to itself**, at once or over others. -/
theorem WellFormed.hasCycle_iff (h : g.WellFormed) :
    g.hasCycle = true ↔ ∃ p, TransGen g.HasEdge p p := by
  rw [hasCycle_iff_exists]
  constructor
  · rintro ⟨i, hcycle⟩
    obtain ⟨p, q, hp, hq, hchain⟩ := h.transGen_hasEdge hcycle
    obtain rfl : p = q := Option.some.inj (hp.symm.trans hq)
    exact ⟨p, hchain⟩
  · rintro ⟨p, hcycle⟩
    obtain ⟨i, j, hi, hj, hchain⟩ := h.transGen_leads hcycle
    obtain rfl := h.eq_of_path? hi hj
    exact ⟨i, hchain⟩

/-! ## 4. Cycles in a tree -/

section OfTree

variable {t : RefTree} {k : Path} {rootPath : Option Path}

/-- A chain of references that starts from `p`, goes on over `ps` and ends with the file that it
started from. -/
def Circle (t : RefTree) (k p : Path) (ps : List Path) : Prop :=
  List.IsChain (t.Refers k) (p :: ps) ∧ ∃ q, ps.getLast? = some q ∧ q.Same p

theorem exists_transGen_of_circle {ps : List Path} (h : Circle t k p ps) :
    ∃ q, TransGen (t.Refers k) p q ∧ q.Same p := by
  obtain ⟨hchain, q, hlast, hsame⟩ := h
  refine ⟨q, ?_, hsame⟩
  cases ps with
  | nil => simp at hlast
  | cons r rs =>
    obtain ⟨hfirst, hrest⟩ := List.isChain_cons_cons.mp hchain
    rw [List.getLast?_eq_getLast_of_ne_nil (List.cons_ne_nil r rs), Option.some.injEq] at hlast
    exact .head' hfirst (List.relationReflTransGen_of_exists_isChain_cons rs hrest hlast)

theorem exists_circle_of_transGen (h : TransGen (t.Refers k) p p) : ∃ ps, Circle t k p ps := by
  obtain ⟨r, hfirst, hrest⟩ := TransGen.head'_iff.mp h
  obtain ⟨rs, hchain, hlast⟩ := List.exists_isChain_cons_of_relationReflTransGen hrest
  refine ⟨r :: rs, List.isChain_cons_cons.mpr ⟨hfirst, hchain⟩, p, ?_, Path.Same.refl p⟩
  rw [List.getLast?_eq_getLast_of_ne_nil (List.cons_ne_nil r rs), hlast]

/-- A chain of references in the tree is a chain of edges between the nodes of its files. -/
theorem transGen_leads_of_refers (h : TransGen (t.Refers (rootPath.getD t.file)) p q) :
    ∃ i j, (ofTree t rootPath).At i p ∧ (ofTree t rootPath).At j q ∧
      TransGen (Leads (ofTree t rootPath).edges) i j := by
  induction h with
  | single hpq =>
    obtain ⟨i, j, he, hi, hj⟩ := (exists_mem_edges_ofTree_iff t rootPath).mpr hpq
    exact ⟨i, j, hi, hj, .single he⟩
  | tail _ hqr ih =>
    obtain ⟨i, j, hi, hj, hchain⟩ := ih
    obtain ⟨j', l, he, hj', hl⟩ := (exists_mem_edges_ofTree_iff t rootPath).mpr hqr
    -- the file in the middle has one number
    obtain rfl := (wellFormed_ofTree t rootPath).eq_of_at hj hj'
    exact ⟨i, l, hi, hl, .tail hchain he⟩

theorem refers_of_hasEdge (h : (ofTree t rootPath).HasEdge p q) :
    t.Refers (rootPath.getD t.file) p q := by
  obtain ⟨i, j, he, hi, hj⟩ := h
  exact (exists_mem_edges_ofTree_iff t rootPath).mp
    ⟨i, j, he, ⟨p, hi, Path.Same.refl p⟩, q, hj, Path.Same.refl q⟩

theorem hasCycle_of_transGen (h : TransGen (t.Refers (rootPath.getD t.file)) p q)
    (hsame : q.Same p) : (ofTree t rootPath).hasCycle = true := by
  obtain ⟨i, j, hi, hj, hleads⟩ := transGen_leads_of_refers h
  obtain rfl := (wellFormed_ofTree t rootPath).eq_of_at hi (hj.congr hsame)
  exact (hasCycle_iff_exists _).mpr ⟨i, hleads⟩

theorem hasCycle_of_circle {ps : List Path} (h : Circle t (rootPath.getD t.file) p ps) :
    (ofTree t rootPath).hasCycle = true := by
  obtain ⟨q, hchain, hsame⟩ := exists_transGen_of_circle h
  exact hasCycle_of_transGen hchain hsame

/-- A chain of references leads from the root to every node below it. The induction is on depth. -/
theorem transGen_refers_of_mem_walk {n : Nat × RefTree} (hn : n ∈ t.walk) (hpos : 0 < n.1) :
    TransGen (t.Refers k) k n.2.file := by
  obtain ⟨depth, c⟩ := n
  induction depth generalizing c with
  | zero => exact absurd hpos (Nat.lt_irrefl 0)
  | succ depth ih =>
    rw [RefTree.walk_eq_nodes] at hn
    rcases RefTree.exists_parent_of_mem_nodes hn with htop | ⟨⟨d, parent⟩, hm, hlink, hdepth⟩
    · exact absurd (Prod.mk.inj htop).1 (Nat.succ_ne_zero depth)
    · obtain rfl : depth = d := Nat.succ.inj hdepth
      rw [← RefTree.walk_eq_nodes] at hm
      have hrefers : t.Refers k (RefTree.standsFor k (depth, parent)) c.file :=
        ⟨_, hm, c, hlink, Path.Same.refl _, Path.Same.refl _⟩
      cases depth with
      | zero => exact .single hrefers
      | succ depth => exact .tail (ih parent hm (Nat.succ_pos depth)) hrefers

theorem exists_circle_of_hasCycle (h : (ofTree t rootPath).hasCycle = true) :
    ∃ p ps, Circle t (rootPath.getD t.file) p ps := by
  obtain ⟨p, hcycle⟩ := (wellFormed_ofTree t rootPath).hasCycle_iff.mp h
  exact ⟨p, exists_circle_of_transGen (TransGen.mono (fun _ _ => refers_of_hasEdge) p p hcycle)⟩

/-- What every reference raises is raised along a chain of them. -/
theorem rank_lt_of_transGen {rank : Path → Nat} (hrank : ∀ p q, t.Refers k p q → rank p < rank q)
    (h : TransGen (t.Refers k) p q) : rank p < rank q := by
  induction h with
  | single hpq => exact hrank _ _ hpq
  | tail _ hqr ih => exact Nat.lt_trans ih (hrank _ _ hqr)

/-- **The graph of a tree has a cycle if and only if the tree has a circle of references.** A node with
its own file among its links is one. But files that can be ranked so that every reference goes up are
on none, in however many places of the tree they stand. -/
theorem hasCycle_ofTree (t : RefTree) (rootPath : Option Path) :
    ((ofTree t rootPath).hasCycle = true ↔ ∃ p ps, Circle t (rootPath.getD t.file) p ps) ∧
      (∀ p, t.Refers (rootPath.getD t.file) p p → (ofTree t rootPath).hasCycle = true) ∧
      ∀ rank : Path → Nat, (∀ p q, t.Refers (rootPath.getD t.file) p q → rank p < rank q) →
        (ofTree t rootPath).hasCycle = false := by
  refine ⟨⟨exists_circle_of_hasCycle, ?_⟩, ?_, ?_⟩
  · rintro ⟨p, ps, h⟩
    exact hasCycle_of_circle h
  · intro p h
    obtain ⟨ps, hcircle⟩ := exists_circle_of_transGen (.single h)
    exact hasCycle_of_circle hcircle
  · intro rank hrank
    rw [Bool.eq_false_iff]
    intro hcycle
    obtain ⟨p, hchain⟩ := (wellFormed_ofTree t rootPath).hasCycle_iff.mp hcycle
    have hup := TransGen.mono (fun _ _ => refers_of_hasEdge) p p hchain
    exact absurd (rank_lt_of_transGen hrank hup) (Nat.lt_irrefl _)

-- a file that two ways lead to is on no cycle
example : (ofTree (.node (.ofString "/p/a.ts")
    [.node (.ofString "/p/b.ts") [.leaf (.ofString "/p/d.ts")],
      .node (.ofString "/p/c.ts") [.leaf (.ofString "/p/d.ts")]]) none).hasCycle = false := by cbv

end OfTree
end Citator.RefGraph

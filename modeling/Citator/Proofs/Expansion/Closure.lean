import Citator.Proofs.Expansion.Root
import Citator.Proofs.RefGraph.OfTree
import Citator.Report

/-!
# `Citator.Proofs.Expansion.Closure` — an expansion without bounds finds everything, once

What there is to be found does not depend on a traversal: `Reached` are the files that the root can be
reached from over files that the gate admits. An expansion searches for each of them, since a file that
it does not search for was visited or is not admitted; and for no other, since it only searches for
what it found. Most places where a file stands in the tree are leaves. Its referrers are the links of
the one node that was expanded for it, so no reference is lost from the graph, in which a file is one
node again.
-/

namespace Citator

open Citator.Path

namespace Finder

/-- The files that are to be expanded: the root, and every admitted file that refers to one of them. -/
inductive Reached (f : Finder) (r : Path) : Path → Prop where
  | root : Reached f r r
  | link {g h : Path} {found : List Path} (hg : Reached f r g)
      (hfound : f.snapshot.referrers f.extensions g = .ok found) (hmem : h ∈ found)
      (hadm : f.admits h = true) : Reached f r h

/-- What an expansion without bounds comes to. -/
structure Exact (f : Finder) (r : Path) (e : Expansion) : Prop where
  /-- The graph has the root and the referrers of what is reached, each once. -/
  nodup_paths : e.graph.paths.Nodup
  mem_paths : ∀ h, h ∈ e.graph.paths ↔ h = r ∨
    ∃ g found, f.Reached r g ∧ f.snapshot.referrers f.extensions g = .ok found ∧ h ∈ found
  /-- It has their references, each once. -/
  nodup_edges : e.graph.edges.Nodup
  hasEdge : ∀ g h, e.graph.HasEdge g h ↔ f.Reached r g ∧
    ∃ found, f.snapshot.referrers f.extensions g = .ok found ∧ h ∈ found
  /-- What is reached was counted. -/
  expanded : ∃ reached : List Path, reached.Nodup ∧ (∀ g, g ∈ reached ↔ f.Reached r g) ∧
    e.stats.expanded = reached.length

variable {f : Finder} {name : String} {r : Path} {e : Expansion}

/-! ## 1. Whatever is searched for is reached -/

/-- Where an expansion halts, it had reached the file. -/
theorem exists_reached_of_halts {depth : Nat} {links : List (Path × Verdict)} {p : Progress} {h : Halt}
    (hh : f.inquiry.Halts depth links p h) (hs : ∀ g ∈ Inquiry.scheduled links, f.Reached r g) :
    ∃ g, f.Reached r g ∧ f.snapshot.referrers f.extensions g = .error h.error := by
  -- what is attached after a search is reached, if the file of the search is
  have hopens : ∀ {g depth found links p p₂}, f.Reached r g →
      f.inquiry.Opens depth g found p links p₂ → ∀ g' ∈ Inquiry.scheduled links, f.Reached r g' := by
    intro g depth found links p p₂ hg opens g' hg'
    have ha := opens.attached
    exact .link hg opens.look (ha.mem_found hg') (ha.worth g' hg').1
  induction hh with
  | @here _ g _ _ err look => exact ⟨g, hs g List.mem_cons_self, look⟩
  | inside opens _ ih => exact ih (hopens (hs _ List.mem_cons_self) opens)
  | afterLeaf hv _ ih =>
    rw [Inquiry.scheduled_cons_leaf hv] at hs
    exact ih hs
  | afterNode _ _ _ ih => exact ih fun g hg => hs g (List.mem_cons_of_mem _ hg)

namespace Course

variable {expanded : List (Nat × RefTree)}

theorem reached (hc : f.Course r e expanded) (n : Nat × RefTree)
    (hn : n ∈ (0, e.root) :: expanded) : f.Reached r n.2.file := by
  refine hc.induction (P := fun n => n ∈ (0, e.root) :: expanded → f.Reached r n.2.file) ?_ ?_ n
    (hc.mem_walk hn) hn
  · intro _
    rw [hc.file]
    exact .root
  · -- a link that was expanded was found from `m` and is admitted
    intro m hm c hlink ih hn
    obtain ⟨found, hfound, hfront, -⟩ := hc.searched_cons m hm
    rcases List.mem_cons.mp hn with hn | hn
    · exact absurd (congrArg Prod.fst hn) (Nat.succ_ne_zero _)
    · exact .link (ih hm) hfound (hfront.subset (List.mem_map_of_mem hlink)) (hc.worth _ hn).1

/-! ## 2. Whatever is reached is searched for -/

section Unbounded

variable (hm : f.InMemory) (habs : f.snapshot.root.isAbsolute = true)
  (hdepth : f.limits.maxDepth = none) (hnodes : f.limits.maxNodes = none)
  (hr : r ∈ f.snapshot.files.map (·.path)) (hc : f.Course r e expanded)

include hm habs hdepth hnodes hr hc

theorem exists_of_reached {g : Path} (hg : f.Reached r g) :
    ∃ m ∈ (0, e.root) :: expanded, m.2.file = g := by
  induction hg with
  | root => exact ⟨_, List.mem_cons_self, hc.file⟩
  | @link g h found _ hfound hmem hadm ih =>
    -- the node that was expanded for `g` has a link to `h`
    obtain ⟨m, hm', rfl⟩ := ih
    obtain rfl : found = m.2.links.map (·.file) :=
      Except.ok.inj (hfound.symm.trans (hc.referrers_eq hnodes hm'))
    obtain ⟨c, hlink, rfl⟩ := List.mem_map.mp hmem
    have hnode := hc.mem_nodesAll_of_mem_links hm' hlink
    have hworth : f.inquiry.Worth (m.1 + 1) c.file :=
      ⟨hadm, Inquiry.isDeep_of_maxDepth_none hdepth _⟩
    exact hc.exists_of_worth hm habs hr hnode hworth

/-- The files that are searched for are those that are reached. -/
theorem mem_lookups_iff {g : Path} : g ∈ e.lookups.map (·.file) ↔ f.Reached r g := by
  rw [hc.lookups_eq]
  constructor
  · intro hg
    obtain ⟨m, hm', rfl⟩ := List.mem_map.mp hg
    exact hc.reached m hm'
  · intro hg
    obtain ⟨m, hm', rfl⟩ := hc.exists_of_reached hm habs hdepth hnodes hr hg
    exact List.mem_map_of_mem hm'

/-- What is reached, with its referrers, is what was expanded, with its links. -/
theorem reached_iff {g : Path} {found : List Path} :
    (f.Reached r g ∧ f.snapshot.referrers f.extensions g = .ok found) ↔
      ∃ m ∈ (0, e.root) :: expanded, m.2.file = g ∧ m.2.links.map (·.file) = found := by
  constructor
  · rintro ⟨hg, hfound⟩
    obtain ⟨m, hm', rfl⟩ := hc.exists_of_reached hm habs hdepth hnodes hr hg
    exact ⟨m, hm', rfl, Except.ok.inj ((hc.referrers_eq hnodes hm').symm.trans hfound)⟩
  · rintro ⟨m, hm', rfl, rfl⟩
    exact ⟨hc.reached m hm', hc.referrers_eq hnodes hm'⟩

/-! ## 3. The graph -/

theorem mem_tree_iff {h : Path} :
    h ∈ r :: (RefTree.nodesAll 1 e.root.links).map (·.2.file) ↔ h = r ∨
      ∃ g found, f.Reached r g ∧ f.snapshot.referrers f.extensions g = .ok found ∧ h ∈ found := by
  rw [List.mem_cons]
  refine or_congr_right ?_
  constructor
  · intro hh
    obtain ⟨n, hn, rfl⟩ := List.mem_map.mp hh
    obtain ⟨m, hm', hlink, -⟩ := hc.exists_parent n hn
    exact ⟨m.2.file, _, hc.reached m hm', hc.referrers_eq hnodes hm', List.mem_map_of_mem hlink⟩
  · rintro ⟨g, found, hg, hfound, hmem⟩
    obtain ⟨m, hm', -, rfl⟩ := (hc.reached_iff hm habs hdepth hnodes hr).mp ⟨hg, hfound⟩
    obtain ⟨c, hlink, rfl⟩ := List.mem_map.mp hmem
    exact List.mem_map.mpr ⟨_, hc.mem_nodesAll_of_mem_links hm' hlink, rfl⟩

theorem mem_arrows_iff {g h : Path} : (g, h) ∈ RefTree.arrows r e.root.links ↔
    f.Reached r g ∧ ∃ found, f.snapshot.referrers f.extensions g = .ok found ∧ h ∈ found := by
  rw [RefTree.mem_arrows_iff r e.root.links 1]
  constructor
  · rintro (⟨rfl, hlink⟩ | ⟨n, hn, rfl, hlink⟩)
    · exact ⟨.root, _, hc.referrers_root hnodes, hlink⟩
    · obtain ⟨c, hc', -⟩ := List.mem_map.mp hlink
      have hm' := hc.mem_of_mem_links (RefTree.mem_walk_of_mem_nodesAll hn) hc'
      exact ⟨hc.reached n hm', _, hc.referrers_eq hnodes hm', hlink⟩
  · rintro ⟨hg, found, hfound, hmem⟩
    obtain ⟨m, hm', rfl, rfl⟩ := (hc.reached_iff hm habs hdepth hnodes hr).mp ⟨hg, hfound⟩
    rcases List.mem_cons.mp hm' with rfl | hm'
    · exact Or.inl ⟨hc.file, hmem⟩
    · exact Or.inr ⟨m, hc.expanded_subset m hm', rfl, hmem⟩

theorem exact (hpath : e.rootPath = some r) : f.Exact r e := by
  have htree : ∀ a ∈ r :: (RefTree.nodesAll 1 e.root.links).map (·.2.file),
      a ∈ f.snapshot.files.map (·.path) := by
    intro a ha
    rcases List.mem_cons.mp ha with rfl | ha
    · exact hr
    · obtain ⟨n, hn, rfl⟩ := List.mem_map.mp ha
      exact hc.mem_files n hn
  have htext : ∀ a ∈ r :: (RefTree.nodesAll 1 e.root.links).map (·.2.file),
      ∀ b ∈ r :: (RefTree.nodesAll 1 e.root.links).map (·.2.file), a.Same b → a = b :=
    fun a ha b hb => hm.apart.eq_of_same (htree a ha) (htree b hb)
  have hwf := RefGraph.wellFormed_ofTree e.root (some r)
  have hgraph : e.graph = .ofTree e.root (some r) := by rw [Expansion.graph, hpath]
  constructor
  case nodup_paths =>
    rw [hgraph]
    exact hwf.apart.nodup
  case mem_paths =>
    intro h
    rw [hgraph, RefGraph.paths_ofTree, Option.getD_some, mem_distinct_iff htext]
    exact hc.mem_tree_iff hm habs hdepth hnodes hr
  case nodup_edges =>
    rw [hgraph]
    exact hwf.nodup
  case hasEdge =>
    intro g h
    rw [hgraph, RefGraph.hasEdge_ofTree_iff e.root (some r) htext]
    exact hc.mem_arrows_iff hm habs hdepth hnodes hr
  case expanded =>
    refine ⟨e.lookups.map (·.file), hc.nodup_lookups hm habs hr,
      fun g => hc.mem_lookups_iff hm habs hdepth hnodes hr, ?_⟩
    rw [hc.count, List.length_map]

end Unbounded
end Course

/-! ## 4. Builds without bounds -/

/-- A build without a bound on depth that succeeds has a course. -/
theorem exists_course_of_build (hdepth : f.limits.maxDepth = none)
    (hr : f.resolveRoot? (.ofString name) = some r) (hb : f.build name = .ok e) :
    e.rootPath = some r ∧ ∃ expanded, f.Course r e expanded := by
  obtain ⟨hpath, ⟨hzero, -⟩ | ⟨-, hc⟩⟩ := course_of_build hb
  · rw [hdepth] at hzero
    exact absurd hzero (by simp)
  · rw [file_rootNode_of_eq_some hr] at hc
    exact ⟨hpath.trans hr, hc⟩

/-- One that fails had reached a file without a token. -/
theorem exists_reached_of_build_eq_error (hr : f.resolveRoot? (.ofString name) = some r)
    {err : EmptyTarget} (hb : f.build name = .error err) :
    ∃ g, f.Reached r g ∧ f.snapshot.referrers f.extensions g = .error err := by
  obtain ⟨h, rfl, hh⟩ := halts_of_build hb
  rw [file_rootNode_of_eq_some hr] at hh
  refine exists_reached_of_halts hh fun g hg => ?_
  rw [List.mem_singleton.mp hg]
  exact .root

/-- **A build without bounds is exact.** It succeeds if and only if every file that is reached has a
token to search for; and then its graph has just the files and references that there are. -/
theorem build_exact (hm : f.InMemory) (habs : f.snapshot.root.isAbsolute = true)
    (hdepth : f.limits.maxDepth = none) (hnodes : f.limits.maxNodes = none)
    (hr : f.resolveRoot? (.ofString name) = some r) :
    ((∃ e, f.build name = .ok e) ↔ ∀ g, f.Reached r g →
        ∃ token, Citation.token (Extension.kept f.extensions) g = .ok token) ∧
      ∀ e, f.build name = .ok e → f.Exact r e := by
  have hmem := mem_of_resolveRoot? hr
  refine ⟨⟨?_, ?_⟩, ?_⟩
  · rintro ⟨e, hb⟩ g hg
    obtain ⟨-, expanded, hc⟩ := exists_course_of_build hdepth hr hb
    obtain ⟨m, hm', rfl⟩ := hc.exists_of_reached hm habs hdepth hnodes hmem hg
    obtain ⟨token, htoken, -⟩ := Snapshot.referrers_eq_ok_iff.mp (hc.referrers_eq hnodes hm')
    exact ⟨token, htoken⟩
  · intro htokens
    cases hb : f.build name with
    | ok e => exact ⟨e, rfl⟩
    | error err =>
      -- the file at which it halted is reached and has no token
      obtain ⟨g, hg, herr⟩ := exists_reached_of_build_eq_error hr hb
      obtain ⟨token, htoken⟩ := htokens g hg
      rw [Snapshot.referrers_eq_ok_iff.mpr ⟨token, htoken, rfl⟩] at herr
      exact absurd herr (by simp)
  · intro e hb
    obtain ⟨hpath, expanded, hc⟩ := exists_course_of_build hdepth hr hb
    exact hc.exact hm habs hdepth hnodes hmem hpath

/-! ## 5. A circle -/

/-- Three files in a circle, and one that refers to two of them. -/
def circle : Finder :=
  ofTexts "/p" [("a.ts", "import './b'"), ("b.ts", "import './c'"), ("c.ts", "import './a'"),
    ("d.ts", "import './a'; import './b'")]

theorem build_exact_circle :
    ∃ e, circle.build "a" = .ok e ∧ circle.Exact (.ofString "/p/a.ts") e := by
  have hr : circle.resolveRoot? (.ofString "a") = some (.ofString "/p/a.ts") := by decide +kernel
  have habs : circle.snapshot.root.isAbsolute = true := by decide +kernel
  have hexact := (build_exact (inMemory_ofTexts _ _) habs rfl rfl hr).2
  obtain ⟨e, hb, -⟩ : ∃ e, circle.build "a" = .ok e ∧ e.stats.expanded = 4 :=
    exists_build_of_map (m := (·.stats.expanded)) (by decide +kernel)
  exact ⟨e, hb, hexact e hb⟩

end Finder
end Citator

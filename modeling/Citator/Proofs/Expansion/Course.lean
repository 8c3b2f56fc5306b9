import Citator.Proofs.Expansion.Answer

/-!
# `Citator.Proofs.Expansion.Course` — a successful expansion, without its steps

What an expansion did can be read off its tree, given one thing more: which nodes were expanded.
`Finder.Course` is that reading. The searches are for the root and for the expanded nodes, in
pre-order. Their keys are apart, the root's included. Whatever was not expanded is a leaf, and is
settled: its file's key is that of the root or of an expanded node, or it was not worth it.

So the order in which the work was done, the stack and the counters are gone, and what is left is a
statement about one tree. Everything that is to be known about successful expansions follows from it.
-/

namespace Citator

/-- What is computed from an answer, if there is one, is computed from an answer. So a single evaluation
says both that a build succeeds and what it comes to. -/
theorem exists_of_toOption_map {ε α β : Type} {r : Except ε α} {m : α → β} {b : β}
    (h : r.toOption.map m = some b) : ∃ a, r = .ok a ∧ m a = b := by
  cases r with
  | error e => cases h
  | ok a => exact ⟨a, rfl, Option.some.inj h⟩

namespace Finder

open Citator.Path
open scoped List

/-- What became of the root: the nodes below it that were expanded, in pre-order, and what holds of
them and of all others. -/
structure Course (f : Finder) (root : Path) (e : Expansion) (expanded : List (Nat × RefTree)) :
    Prop where
  file : e.root.file = root
  top : f.inquiry.Searched e.root
  lookups : e.lookups.map (·.file) = root :: expanded.map (·.2.file)
  count : e.stats.expanded = e.lookups.length
  apart : Apart (f.rootKey root :: expanded.map fun n => f.key n.2.file)
  nodes : expanded <+ RefTree.nodesAll 1 e.root.links
  branches : (RefTree.nodesAll 1 e.root.links).filter (fun n => !n.2.isLeaf) <+ expanded
  searched : ∀ n ∈ expanded, f.inquiry.Searched n.2
  worth : ∀ n ∈ expanded, f.inquiry.Worth n.1 n.2.file
  settled : ∀ n ∈ RefTree.nodesAll 1 e.root.links,
    f.inquiry.Settled (f.rootKey root :: expanded.map fun n => f.key n.2.file) n.1 n.2.file
  /-- A link of the root that is worth it is expanded right there, or has the root's key. -/
  links : ∀ g ∈ e.root.links.map (·.file), f.inquiry.Worth 1 g →
    (f.rootKey root).Same (f.key g) ∨ ∃ t, (1, t) ∈ expanded ∧ (f.key t.file).Same (f.key g)

variable {f : Finder} {name : String} {e : Expansion}

theorem build_eq_ok_iff : f.build name = .ok e ↔ f.build? name = .ok e := by
  unfold build
  cases f.build? name <;> simp [Except.mapError]

theorem exists_build_of_map {α : Type} {a : α} {m : Expansion → α}
    (h : (f.build name).toOption.map m = some a) : ∃ e, f.build name = .ok e ∧ m e = a :=
  exists_of_toOption_map h

/-- What was visited in the end, if the root was expanded: the root's key, and those of the nodes
that were expanded below it. -/
theorem visited_perm {root : Path} {links : List (Path × Verdict)} {found : List Path}
    {p₂ p : Progress} {ls : List RefTree} {expanded : List (Nat × RefTree)} {marked : List Path}
    (hatt : f.inquiry.Attached 1 found ((f.initial root).lookedUp root found) links p₂)
    (ha : f.inquiry.Account 1 links p₂ p ls expanded marked) :
    p.visited ~ f.rootKey root :: expanded.map fun n => f.key n.2.file := by
  have hfiles := (ha.files.map f.key).symm
  rw [List.map_map, List.map_append] at hfiles
  rw [ha.visited, hatt.visited, f.key_inquiry]
  calc
    marked.map f.key ++ (((Inquiry.scheduled links).map f.key).reverse ++ [f.rootKey root])
        ~ marked.map f.key ++ (f.rootKey root :: (Inquiry.scheduled links).map f.key) :=
      ((List.perm_append_singleton _ _).trans ((List.reverse_perm _).cons _)).append_left _
    _ ~ f.rootKey root :: (marked.map f.key ++ (Inquiry.scheduled links).map f.key) :=
      List.perm_middle
    _ ~ f.rootKey root :: ((Inquiry.scheduled links).map f.key ++ marked.map f.key) :=
      List.perm_append_comm.cons _
    _ ~ f.rootKey root :: expanded.map fun n => f.key n.2.file := hfiles.cons _

/-- What a growth of the root comes to, for the expansion that is made of it. -/
theorem exists_course_of_grows {root : Path} {ls : List RefTree} {p : Progress}
    (hg : f.inquiry.Grows 0 [(root, .scheduled)] (f.initial root) [.node root ls] p)
    (htree : e.root = .node root ls) (hstats : e.stats = p.stats)
    (hlook : e.lookups = p.lookups.reverse) : ∃ expanded, f.Course root e expanded := by
  have hexp := hg.expanded_eq rfl
  have hap := hg.apart (f.apart_initial root)
  obtain ⟨tree, rootPath, stats, lookups⟩ := e
  simp only at htree hstats hlook
  subst htree hstats hlook
  cases hg with
  | leaf hv _ => exact absurd rfl hv
  | @node _ _ _ links found _ p₂ _ _ _ _ opens below after =>
    cases after
    -- the root is not in the account: its key counts as visited from the start
    have hatt := opens.attached
    obtain ⟨expanded, marked, ha⟩ := below.account
    have hperm := visited_perm hatt ha
    refine ⟨expanded, ?_⟩
    constructor
    case file => rfl
    case top =>
      refine ⟨found, opens.look, ?_, fun hnone => ?_⟩
      · show ls.map (·.file) <+: found
        rw [below.files_eq]
        exact hatt.front
      · show ls.map (·.file) = found
        rw [below.files_eq]
        exact hatt.all hnone
    case lookups =>
      rw [List.map_reverse, ha.lookups, hatt.lookups]
      simp [Progress.lookedUp, initial]
    case count => rw [hexp, List.length_reverse]
    case apart => exact hap.perm hperm
    case nodes => exact ha.nodes
    case branches => exact ha.branches
    case searched => exact ha.searched
    case worth => exact ha.worth hatt.worth
    case settled =>
      intro n hn
      exact (below.settled hatt.settled n hn).mono hperm.subset
    case links =>
      intro g hg hw
      have hg' : g ∈ links.map (·.1) := by
        rw [← below.files_eq]
        exact hg
      rcases hatt.settled g hg' with hm | hnw
      · -- the key was visited by the root, or by a link of the root that is scheduled
        obtain ⟨k, hk, hsame⟩ := memSame_iff.mp hm
        rw [hatt.visited] at hk
        rcases List.mem_append.mp hk with hk | hk
        · obtain ⟨g', hg', rfl⟩ := List.mem_map.mp (List.mem_reverse.mp hk)
          obtain ⟨t, ht, rfl⟩ := ha.tops g' hg'
          exact Or.inr ⟨t, ht, hsame⟩
        · rw [List.mem_singleton.mp hk] at hsame
          exact Or.inl hsame
      · exact absurd hw hnw

/-- What a successful build was: nothing, if the bound on depth keeps even the root from being
expanded; otherwise a growth of the root. -/
theorem grows_of_build (hb : f.build name = .ok e) :
    e.rootPath = f.resolveRoot? (.ofString name) ∧
      ((f.limits.maxDepth = some 0 ∧ e.root = .leaf (f.rootNode name).file ∧
          e.stats = (f.initial (f.rootNode name).file).stats ∧ e.lookups = []) ∨
        (f.limits.maxDepth ≠ some 0 ∧ ∃ ls p,
          f.inquiry.Grows 0 [((f.rootNode name).file, .scheduled)] (f.initial (f.rootNode name).file)
            [.node (f.rootNode name).file ls] p ∧
          e.root = .node (f.rootNode name).file ls ∧ e.stats = p.stats ∧
          e.lookups = p.lookups.reverse)) := by
  rw [build_eq_ok_iff, build?] at hb
  have hans := f.answers_expandTree (f.rootNode name)
  have hleaf : (f.rootNode name).links = [] := rfl
  generalize f.rootNode name = t at *
  cases hr : f.expandTree t with
  | error h => simp [hr, Except.map] at hb
  | ok r =>
    rw [hr] at hans
    simp only [hr, Except.map, Except.ok.injEq] at hb
    subst hb
    refine ⟨rfl, ?_⟩
    cases hans with
    | unexpanded begins hmax =>
      obtain ⟨-, rfl⟩ := begins_iff.mp begins
      refine Or.inl ⟨hmax, ?_, rfl, rfl⟩
      obtain ⟨g, ls⟩ := t
      rw [show ls = [] from hleaf]
      rfl
    | expanded begins hmax hg =>
      obtain ⟨rfl, rfl⟩ := begins_iff.mp begins
      refine Or.inr ⟨hmax, _, _, hg, ?_, rfl, rfl⟩
      rw [hleaf, List.nil_append]

theorem file_root_of_build (hb : f.build name = .ok e) : e.root.file = (f.rootNode name).file := by
  rcases (grows_of_build hb).2 with ⟨-, hroot, -⟩ | ⟨-, ls, p, -, hroot, -⟩
  · rw [hroot]
    rfl
  · rw [hroot]
    rfl

theorem build_of_maxDepth_zero (hmax : f.limits.maxDepth = some 0) :
    f.build name = .ok ⟨.leaf (f.rootNode name).file, f.resolveRoot? (.ofString name),
      (f.initial (f.rootNode name).file).stats, []⟩ := by
  rw [build_eq_ok_iff, build?, (Answers.unexpanded (f.begins_inquiry _) hmax).expandTree_eq]
  rfl

/-- A growth of the root is a build. -/
theorem build_of_grows {ls : List RefTree} {p : Progress} (hmax : f.limits.maxDepth ≠ some 0)
    (hg : f.inquiry.Grows 0 [((f.rootNode name).file, .scheduled)]
      (f.initial (f.rootNode name).file) [.node (f.rootNode name).file ls] p) :
    f.build name = .ok ⟨.node (f.rootNode name).file ls, f.resolveRoot? (.ofString name), p.stats,
      p.lookups.reverse⟩ := by
  rw [build_eq_ok_iff, build?, (Answers.expanded (f.begins_inquiry _) hmax hg).expandTree_eq]
  rfl

/-- **A successful build has a course**, unless the bound on depth keeps even the root from being
expanded. -/
theorem course_of_build (hb : f.build name = .ok e) :
    e.rootPath = f.resolveRoot? (.ofString name) ∧
      ((f.limits.maxDepth = some 0 ∧ e.root = .leaf (f.rootNode name).file ∧ e.lookups = [] ∧
          e.stats.expanded = 0) ∨
        (f.limits.maxDepth ≠ some 0 ∧ ∃ expanded, f.Course (f.rootNode name).file e expanded)) := by
  obtain ⟨hpath, ⟨hmax, hroot, hstats, hlook⟩ | ⟨hmax, ls, p, hg, hroot, hstats, hlook⟩⟩ :=
    grows_of_build hb
  · refine ⟨hpath, Or.inl ⟨hmax, hroot, hlook, ?_⟩⟩
    rw [hstats]
    rfl
  · exact ⟨hpath, Or.inr ⟨hmax, exists_course_of_grows hg hroot hstats hlook⟩⟩

/-- A build fails because the expansion of its root halts. -/
theorem halts_of_build {err : EmptyTarget} (hb : f.build name = .error err) :
    ∃ h, h.error = err ∧ f.inquiry.Halts 0 [((f.rootNode name).file, .scheduled)]
      (f.initial (f.rootNode name).file) h := by
  unfold build build? at hb
  have hans := f.answers_expandTree (f.rootNode name)
  cases hr : f.expandTree (f.rootNode name) with
  | ok r => simp [hr, Except.map, Except.mapError] at hb
  | error h =>
    rw [hr] at hans
    cases hans with
    | halted begins _ hh =>
      obtain ⟨rfl, rfl⟩ := begins_iff.mp begins
      exact ⟨h, by simpa [hr, Except.map, Except.mapError] using hb, hh⟩

/-! ## What the nodes of the tree are -/

namespace Course

variable {root : Path} {expanded : List (Nat × RefTree)}

/-- The searches were for the root and for the nodes that were expanded below it. -/
theorem lookups_eq (hc : f.Course root e expanded) :
    e.lookups.map (·.file) = ((0, e.root) :: expanded).map (·.2.file) := by
  rw [hc.lookups, List.map_cons, hc.file]

theorem mem_walk (hc : f.Course root e expanded) {m : Nat × RefTree}
    (hm : m ∈ (0, e.root) :: expanded) : m ∈ e.root.walk := by
  rw [RefTree.walk_eq_cons]
  exact (hc.nodes.cons_cons _).subset hm

theorem mem_of_mem_links (hc : f.Course root e expanded) {m : Nat × RefTree} {c : RefTree}
    (hm : m ∈ e.root.walk) (hlink : c ∈ m.2.links) : m ∈ (0, e.root) :: expanded := by
  rw [RefTree.walk_eq_cons] at hm
  rcases List.mem_cons.mp hm with rfl | hm
  · exact List.mem_cons_self
  · refine List.mem_cons_of_mem _ (hc.branches.subset (List.mem_filter.mpr ⟨hm, ?_⟩))
    have hne : m.2.links ≠ [] := List.ne_nil_of_mem hlink
    simpa [RefTree.isLeaf] using hne

theorem searched_cons (hc : f.Course root e expanded) :
    ∀ m ∈ (0, e.root) :: expanded, f.inquiry.Searched m.2 := by
  intro m hm
  rcases List.mem_cons.mp hm with rfl | hm
  · exact hc.top
  · exact hc.searched m hm

/-- Every other node is a link of one of them, one level below it. -/
theorem exists_parent (hc : f.Course root e expanded) :
    ∀ n ∈ RefTree.nodesAll 1 e.root.links,
      ∃ m ∈ (0, e.root) :: expanded, n.2 ∈ m.2.links ∧ n.1 = m.1 + 1 := by
  intro n hn
  rcases RefTree.exists_parent_of_mem_nodesAll hn with ⟨hdepth, hlink⟩ | ⟨m, hm, hlink, hdepth⟩
  · exact ⟨_, List.mem_cons_self, hlink, hdepth⟩
  · exact ⟨m, hc.mem_of_mem_links (RefTree.mem_walk_of_mem_nodesAll hm) hlink, hlink, hdepth⟩

/-- What holds of the root and passes from what was expanded to its links holds of every node. The
induction is on the depth of the node. -/
theorem induction (hc : f.Course root e expanded) {P : Nat × RefTree → Prop} (top : P (0, e.root))
    (link : ∀ m ∈ (0, e.root) :: expanded, ∀ c ∈ m.2.links, P m → P (m.1 + 1, c)) :
    ∀ n ∈ e.root.walk, P n := by
  rintro ⟨depth, t⟩ hn
  induction depth using Nat.strongRecOn generalizing t with
  | _ depth ih =>
    rw [RefTree.walk_eq_cons] at hn
    rcases List.mem_cons.mp hn with hn | hn
    · rw [hn]
      exact top
    · obtain ⟨⟨d, parent⟩, hm, hlink, hdepth⟩ := hc.exists_parent _ hn
      obtain rfl : depth = d + 1 := hdepth
      exact link _ hm t hlink (ih d (Nat.lt_succ_self d) parent (hc.mem_walk hm))

/-- What was expanded lies above the bound on depth, -/
theorem isDeep_eq_false (hc : f.Course root e expanded) (hmax : f.limits.maxDepth ≠ some 0)
    {m : Nat × RefTree} (hm : m ∈ (0, e.root) :: expanded) : f.inquiry.isDeep m.1 = false := by
  rcases List.mem_cons.mp hm with rfl | hm
  · refine Inquiry.isDeep_eq_false_iff.mpr fun max h => Nat.pos_of_ne_zero ?_
    rintro rfl
    exact hmax h
  · exact (hc.worth m hm).2

/-- so nothing lies below it. -/
theorem depth_le (hc : f.Course root e expanded) {max : Nat} (hmax : f.limits.maxDepth = some max)
    (hpos : max ≠ 0) : ∀ n ∈ e.root.walk, n.1 ≤ max := by
  have hzero : f.limits.maxDepth ≠ some 0 := fun h => hpos (Option.some.inj (hmax.symm.trans h))
  exact hc.induction (Nat.zero_le max) fun m hm _ _ _ =>
    Inquiry.isDeep_eq_false_iff.mp (hc.isDeep_eq_false hzero hm) max hmax

/-- Every node but the root stands for a file of the corpus. -/
theorem mem_files (hc : f.Course root e expanded) :
    ∀ n ∈ RefTree.nodesAll 1 e.root.links, n.2.file ∈ f.snapshot.files.map (·.path) := by
  intro n hn
  obtain ⟨m, hm, hlink, -⟩ := hc.exists_parent n hn
  obtain ⟨found, hf, hfront, -⟩ := hc.searched_cons m hm
  exact f.referrers_subset _ _ hf (hfront.subset (List.mem_map_of_mem hlink))

theorem mem_nodesAll_of_mem_links (hc : f.Course root e expanded) {m : Nat × RefTree} {c : RefTree}
    (hm : m ∈ (0, e.root) :: expanded) (hlink : c ∈ m.2.links) :
    (m.1 + 1, c) ∈ RefTree.nodesAll 1 e.root.links :=
  RefTree.mem_nodesAll_of_mem_walk (hc.mem_walk hm) hlink

theorem expanded_subset (hc : f.Course root e expanded) :
    ∀ n ∈ expanded, n ∈ RefTree.nodesAll 1 e.root.links :=
  fun _ hn => hc.nodes.subset hn

end Course
end Finder
end Citator

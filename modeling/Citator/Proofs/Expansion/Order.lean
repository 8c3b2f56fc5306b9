import Citator.Proofs.Expansion.Closure
import Citator.Proofs.Expansion.Sums
import Citator.Proofs.Expansion.Whole
import Citator.Proofs.RefGraph.Cycle

/-!
# `Citator.Proofs.Expansion.Order` — what the order of a corpus decides, and what it does not

The order in which a corpus lists its files is the order of the links of every node, and so it decides
which of the places where a file stands is expanded. Two orders can give trees that have little in
common. What they have in common is the references: the same files are reached, and each of them is
searched for once, in whatever order. So two builds without bounds have the same graph, and the same
counts of everything that is a sum over the files that were searched for.

They also fail together, though not always with the same error: the file without a token that is met
first may be another one.
-/

namespace Citator

open Citator.Path
open scoped List

/-- Two expansions that found the same references, whatever their trees look like. -/
structure Expansion.Agrees (e e' : Expansion) : Prop where
  paths : ∀ g, g ∈ e.graph.paths ↔ g ∈ e'.graph.paths
  edges : ∀ g h, e.graph.HasEdge g h ↔ e'.graph.HasEdge g h
  hasCycle : e.graph.hasCycle = e'.graph.hasCycle
  nodes : e.stats.nodes = e'.stats.nodes
  expanded : e.stats.expanded = e'.stats.expanded
  skippedVisited : e.stats.skippedVisited = e'.stats.skippedVisited
  skippedGate : e.stats.skippedGate = e'.stats.skippedGate

theorem Expansion.wellFormed_graph (e : Expansion) : e.graph.WellFormed :=
  RefGraph.wellFormed_ofTree _ _

namespace Finder

/-- Two finders over corpora in memory with one root, which list the same files in different orders.
In all else the finders are the same. -/
structure Shuffled (f f' : Finder) : Prop where
  loaded : ∃ root files files' policy policy',
    (MemoryCorpus.ofList root files).entries ~ (MemoryCorpus.ofList root files').entries ∧
    Snapshot.load (MemoryCorpus.ofList root files).toCorpus policy = .ok f.snapshot ∧
    Snapshot.load (MemoryCorpus.ofList root files').toCorpus policy' = .ok f'.snapshot
  key : f.key = id
  key' : f'.key = id
  extensions : f.extensions = f'.extensions
  admits : f.admits = f'.admits
  limits : f.limits = f'.limits

namespace Shuffled

variable {f f' : Finder} {r g : Path} {name : String} {e e' : Expansion}

theorem symm (h : f.Shuffled f') : f'.Shuffled f := by
  obtain ⟨⟨root, files, files', policy, policy', hp, hload, hload'⟩, hkey, hkey', hexts, hadm, hlim⟩ := h
  exact ⟨⟨root, files', files, policy', policy, hp.symm, hload', hload⟩, hkey', hkey, hexts.symm,
    hadm.symm, hlim.symm⟩

theorem inMemory (h : f.Shuffled f') : f.InMemory := by
  obtain ⟨root, files, -, policy, -, -, hload, -⟩ := h.loaded
  exact ⟨⟨root, files, policy, hload⟩, h.key⟩

theorem root_eq (h : f.Shuffled f') : f.snapshot.root = f'.snapshot.root := by
  obtain ⟨root, files, files', policy, policy', -, hload, hload'⟩ := h.loaded
  rw [(Snapshot.files_sublist_of_load hload).2, (Snapshot.files_sublist_of_load hload').2]
  exact (MemoryCorpus.root_ofList root files).trans (MemoryCorpus.root_ofList root files').symm

/-- The snapshots hold the same files. -/
theorem files_perm (h : f.Shuffled f') : f.snapshot.files ~ f'.snapshot.files := by
  obtain ⟨root, files, files', policy, policy', hp, hload, hload'⟩ := h.loaded
  rw [Snapshot.files_of_load hload, Snapshot.files_of_load hload']
  exact hp.filterMap _

/-! ## 1. What is reached -/

/-- A search finds the same files, -/
theorem referrers_perm (h : f.Shuffled f') {found : List Path}
    (hf : f.snapshot.referrers f.extensions g = .ok found) :
    ∃ found', f'.snapshot.referrers f'.extensions g = .ok found' ∧ found ~ found' := by
  rw [← h.extensions]
  exact Snapshot.referrers_perm h.files_perm hf

/-- or fails with the same error. -/
theorem referrers_eq_error (h : f.Shuffled f') {err : EmptyTarget}
    (hf : f.snapshot.referrers f.extensions g = .error err) :
    f'.snapshot.referrers f'.extensions g = .error err := by
  rw [← h.extensions]
  exact Snapshot.referrers_eq_error_iff.mpr (Snapshot.referrers_eq_error_iff.mp hf)

theorem found_perm (h : f.Shuffled f') (g : Path) : f.inquiry.found g ~ f'.inquiry.found g := by
  cases hf : f.snapshot.referrers f.extensions g with
  | ok found =>
    obtain ⟨found', hf', hp⟩ := h.referrers_perm hf
    rw [Inquiry.found_of_eq_ok hf, Inquiry.found_of_eq_ok hf']
    exact hp
  | error err =>
    rw [Inquiry.found_of_eq_error hf, Inquiry.found_of_eq_error (h.referrers_eq_error hf)]

theorem reached (h : f.Shuffled f') (hg : f.Reached r g) : f'.Reached r g := by
  induction hg with
  | root => exact .root
  | link _ hfound hmem hadm ih =>
    obtain ⟨found', hfound', hp⟩ := h.referrers_perm hfound
    exact .link ih hfound' (hp.subset hmem) (h.admits ▸ hadm)

theorem reached_iff (h : f.Shuffled f') : f.Reached r g ↔ f'.Reached r g :=
  ⟨h.reached, h.symm.reached⟩

theorem exists_referrer (h : f.Shuffled f') {g' : Path}
    (hf : ∃ found, f.snapshot.referrers f.extensions g = .ok found ∧ g' ∈ found) :
    ∃ found, f'.snapshot.referrers f'.extensions g = .ok found ∧ g' ∈ found := by
  obtain ⟨found, hfound, hmem⟩ := hf
  obtain ⟨found', hfound', hp⟩ := h.referrers_perm hfound
  exact ⟨found', hfound', hp.subset hmem⟩

/-- The same files refer to a file. -/
theorem exists_referrer_iff (h : f.Shuffled f') {g' : Path} :
    (∃ found, f.snapshot.referrers f.extensions g = .ok found ∧ g' ∈ found) ↔
      ∃ found, f'.snapshot.referrers f'.extensions g = .ok found ∧ g' ∈ found :=
  ⟨h.exists_referrer, h.symm.exists_referrer⟩

/-! ## 2. Graphs and sums -/

theorem mem_paths_iff (h : f.Shuffled f') (hexact : f.Exact r e) (hexact' : f'.Exact r e') :
    g ∈ e.graph.paths ↔ g ∈ e'.graph.paths := by
  have hlinked : (∃ g₀ found, f.Reached r g₀ ∧ f.snapshot.referrers f.extensions g₀ = .ok found ∧
        g ∈ found) ↔
      ∃ g₀ found, f'.Reached r g₀ ∧ f'.snapshot.referrers f'.extensions g₀ = .ok found ∧
        g ∈ found := by
    refine exists_congr fun g₀ => ?_
    rw [exists_and_left, exists_and_left, h.reached_iff, h.exists_referrer_iff]
  rw [hexact.mem_paths, hexact'.mem_paths, hlinked]

theorem hasEdge_iff (h : f.Shuffled f') (hexact : f.Exact r e) (hexact' : f'.Exact r e')
    {g' : Path} : e.graph.HasEdge g g' ↔ e'.graph.HasEdge g g' := by
  rw [hexact.hasEdge, hexact'.hasEdge, h.reached_iff, h.exists_referrer_iff]

theorem hasCycle_eq (h : f.Shuffled f') (hexact : f.Exact r e) (hexact' : f'.Exact r e') :
    e.graph.hasCycle = e'.graph.hasCycle := by
  have hrel : e.graph.HasEdge = e'.graph.HasEdge := by
    funext g g'
    exact propext (h.hasEdge_iff hexact hexact')
  rw [Bool.eq_iff_iff, e.wellFormed_graph.hasCycle_iff, e'.wellFormed_graph.hasCycle_iff, hrel]

theorem refuses_eq (h : f.Shuffled f') : f.refuses r = f'.refuses r := by
  funext g
  unfold refuses
  rw [h.admits]

/-- A sum over the files that are searched for does not depend on the order. -/
theorem cited_eq (h : f.Shuffled f') {files files' : List Path} (hp : files ~ files')
    {P : Path → Bool} : f.inquiry.cited P files = f'.inquiry.cited P files' :=
  Inquiry.cited_perm hp fun g _ => h.found_perm g

/-! ## 3. Two builds -/

/-- An absolute name stands for the same file in both. -/
theorem exists_resolveRoot? (h : f.Shuffled f') (habs : f.snapshot.root.isAbsolute = true)
    (hg : g ∈ f.snapshot.files.map (·.path)) (hsame : g.Same (.ofString name)) :
    ∃ r, f.resolveRoot? (.ofString name) = some r ∧ f'.resolveRoot? (.ofString name) = some r := by
  have hname : (Path.ofString name).isAbsolute = true := by
    rw [← hsame.isAbsolute_eq]
    exact h.inMemory.isAbsolute habs g hg
  have hfiles : f.snapshot.files.map (·.path) ~ f'.snapshot.files.map (·.path) := h.files_perm.map _
  obtain ⟨r, hr, hrs⟩ := resolveRoot?_of_isAbsolute hname hg hsame
  obtain ⟨r', hr', hrs'⟩ := resolveRoot?_of_isAbsolute hname (hfiles.subset hg) hsame
  have hmem := mem_of_resolveRoot? hr
  have hmem' := hfiles.symm.subset (mem_of_resolveRoot? hr')
  rw [h.inMemory.apart.eq_of_same hmem' hmem (hrs'.trans hrs.symm)] at hr'
  exact ⟨r, hr, hr'⟩

section Two

variable (h : f.Shuffled f') (habs : f.snapshot.root.isAbsolute = true)
  (hdepth : f.limits.maxDepth = none) (hnodes : f.limits.maxNodes = none)
  (hr : f.resolveRoot? (.ofString name) = some r) (hr' : f'.resolveRoot? (.ofString name) = some r)

include h habs hdepth hnodes hr hr'

/-- If one build fails it had reached a file without a token, and so does the other. -/
theorem exists_build (hb : f.build name = .ok e) : ∃ e', f'.build name = .ok e' := by
  cases hb' : f'.build name with
  | ok e' => exact ⟨e', rfl⟩
  | error err =>
    obtain ⟨g, hg, herr⟩ := exists_reached_of_build_eq_error hr' hb'
    obtain ⟨-, expanded, hc⟩ := exists_course_of_build hdepth hr hb
    obtain ⟨m, hm, rfl⟩ := hc.exists_of_reached h.inMemory habs hdepth hnodes
      (mem_of_resolveRoot? hr) (h.symm.reached hg)
    have hfound := hc.referrers_eq hnodes hm
    exact absurd (hfound.symm.trans (h.symm.referrers_eq_error herr)) (by simp)

/-- Two builds that succeed agree: the graphs are exact, and the counts are sums over the files that
were searched for. -/
theorem agrees (hb : f.build name = .ok e) (hb' : f'.build name = .ok e') : e.Agrees e' := by
  have habs' : f'.snapshot.root.isAbsolute = true := h.root_eq ▸ habs
  have hdepth' : f'.limits.maxDepth = none := h.limits ▸ hdepth
  have hnodes' : f'.limits.maxNodes = none := h.limits ▸ hnodes
  have hm := h.inMemory
  have hm' := h.symm.inMemory
  have hmem := mem_of_resolveRoot? hr
  have hmem' := mem_of_resolveRoot? hr'
  obtain ⟨hpath, expanded, hc⟩ := exists_course_of_build hdepth hr hb
  obtain ⟨hpath', expanded', hc'⟩ := exists_course_of_build hdepth' hr' hb'
  have hexact := hc.exact hm habs hdepth hnodes hmem hpath
  have hexact' := hc'.exact hm' habs' hdepth' hnodes' hmem' hpath'
  have hlook : e.lookups.map (·.file) ~ e'.lookups.map (·.file) := by
    refine (List.perm_ext_iff_of_nodup (hc.nodup_lookups hm habs hmem)
      (hc'.nodup_lookups hm' habs' hmem')).mpr fun g => ?_
    rw [hc.mem_lookups_iff hm habs hdepth hnodes hmem,
      hc'.mem_lookups_iff hm' habs' hdepth' hnodes' hmem', h.reached_iff]
  obtain ⟨hn, hgate, hdeep⟩ :=
    counts_of_build hm habs hdepth hnodes hmem (file_rootNode_of_eq_some hr) hb
  obtain ⟨hn', hgate', hdeep'⟩ :=
    counts_of_build hm' habs' hdepth' hnodes' hmem' (file_rootNode_of_eq_some hr') hb'
  have hnodesEq : e.stats.nodes = e'.stats.nodes := by rw [hn, hn', h.cited_eq hlook]
  have hexpandedEq : e.stats.expanded = e'.stats.expanded := by
    have hlen := hlook.length_eq
    rw [List.length_map, List.length_map] at hlen
    rw [hc.count, hc'.count, hlen]
  have hgateEq : e.stats.skippedGate = e'.stats.skippedGate := by
    rw [hgate, hgate', h.refuses_eq, h.cited_eq hlook]
  constructor
  case paths => exact fun g => h.mem_paths_iff hexact hexact'
  case edges => exact fun g g' => h.hasEdge_iff hexact hexact'
  case hasCycle => exact h.hasCycle_eq hexact hexact'
  case nodes => exact hnodesEq
  case expanded => exact hexpandedEq
  case skippedVisited =>
    -- what is left, since every node is accounted for and none lies too deep
    have hall := accounted_of_build hb (by rw [hdepth]; simp)
    have hall' := accounted_of_build hb' (by rw [hdepth']; simp)
    simp only [Stats.accounted] at hall hall'
    omega
  case skippedGate => exact hgateEq

end Two

end Shuffled

/-- **The order of a corpus does not matter** to a build without bounds, if its root is named by a
path: in two orders it fails in both, or it finds the same references and counts. -/
theorem build_shuffled {f f' : Finder} {name : String} (h : f.Shuffled f')
    (habs : f.snapshot.root.isAbsolute = true) (hdepth : f.limits.maxDepth = none)
    (hnodes : f.limits.maxNodes = none)
    (hroot : ∃ g ∈ f.snapshot.files.map (·.path), g.Same (.ofString name)) :
    ((∃ e, f.build name = .ok e) ↔ ∃ e', f'.build name = .ok e') ∧
      ∀ e e', f.build name = .ok e → f'.build name = .ok e' → e.Agrees e' := by
  obtain ⟨g, hg, hsame⟩ := hroot
  obtain ⟨r, hr, hr'⟩ := h.exists_resolveRoot? habs hg hsame
  have habs' : f'.snapshot.root.isAbsolute = true := h.root_eq ▸ habs
  refine ⟨⟨?_, ?_⟩, fun e e' hb hb' => h.agrees habs hdepth hnodes hr hr' hb hb'⟩
  · rintro ⟨e, hb⟩
    exact h.exists_build habs hdepth hnodes hr hr' hb
  · rintro ⟨e', hb'⟩
    exact h.symm.exists_build habs' (h.limits ▸ hdepth) (h.limits ▸ hnodes) hr' hr hb'

/-- The files of `chainAndShortcut`, with the shorter way listed first. -/
def shortcutAndChain : Finder :=
  ofTexts "/p" [("a.ts", ""), ("d.ts", "import './a'"), ("b.ts", "import './a'"),
    ("c.ts", "import './b'"), ("x.ts", "import './c'; import './d'"), ("y.ts", "import './x'")]

theorem shuffled_ofTexts {root : String} {files files' : List (String × String)}
    (hp : (MemoryCorpus.ofList (.ofString root) (files.map fun f => (.ofString f.1, some f.2))).entries ~
      (MemoryCorpus.ofList (.ofString root) (files'.map fun f => (.ofString f.1, some f.2))).entries)
    (h : (Snapshot.load (MemoryCorpus.ofList (.ofString root)
      (files.map fun f => (.ofString f.1, some f.2))).toCorpus .abort).toOption.isSome = true)
    (h' : (Snapshot.load (MemoryCorpus.ofList (.ofString root)
      (files'.map fun f => (.ofString f.1, some f.2))).toCorpus .abort).toOption.isSome = true) :
    (ofTexts root files).Shuffled (ofTexts root files') :=
  ⟨⟨_, _, _, _, _, hp, Snapshot.load_eq_of_isSome h, Snapshot.load_eq_of_isSome h'⟩, rfl, rfl, rfl, rfl,
    rfl⟩

theorem shuffled_chainAndShortcut : chainAndShortcut.Shuffled shortcutAndChain :=
  shuffled_ofTexts (by decide +kernel) (by decide +kernel) (by decide +kernel)

/-- The trees have different heights. -/
theorem build_shuffled_chainAndShortcut : ∃ e e', chainAndShortcut.build "/p/a.ts" = .ok e ∧
    shortcutAndChain.build "/p/a.ts" = .ok e' ∧ e.stats.maxDepthReached = 4 ∧
      e'.stats.maxDepthReached = 3 ∧ e.Agrees e' := by
  have habs : chainAndShortcut.snapshot.root.isAbsolute = true := by decide +kernel
  have hroot : ∃ g ∈ chainAndShortcut.snapshot.files.map (·.path), g.Same (.ofString "/p/a.ts") := by
    decide +kernel
  obtain ⟨e, hb, hfour⟩ : ∃ e, chainAndShortcut.build "/p/a.ts" = .ok e ∧
      e.stats.maxDepthReached = 4 := exists_build_of_map (m := (·.stats.maxDepthReached)) (by decide +kernel)
  obtain ⟨e', hb', hthree⟩ : ∃ e', shortcutAndChain.build "/p/a.ts" = .ok e' ∧
      e'.stats.maxDepthReached = 3 := exists_build_of_map (m := (·.stats.maxDepthReached)) (by decide +kernel)
  have hagree := (build_shuffled shuffled_chainAndShortcut habs rfl rfl hroot).2 e e' hb hb'
  exact ⟨e, e', hb, hb', hfour, hthree, hagree⟩

end Finder
end Citator

import Citator.Proofs.Corpus.Memory
import Citator.Proofs.Expansion.Course

/-!
# `Citator.Proofs.Expansion.Root` — the file that a root stands for, and the key that it gets

A name is resolved once, for the file of the root's node, and that file is resolved again, for the key
under which the root counts as visited. Below an absolute corpus root the second resolution finds the
file that the first one found, so the key is the root's own file (`rootKey_same`). A root that stands
for no file of the corpus can still get the key of one, when its name is a sloppy spelling of it; but
then the two have one file name, and so the same referrers (`referrers_of_rootKey_same`).

So what a file was met for is there: its referrers are links of the node that was expanded for it, or
of the root (`Course.exists_referrers`).
-/

namespace Citator.Finder

open Citator.Path

variable {f : Finder} {root g r : Path}

theorem mem_of_resolve? {s : Snapshot} {name : String} {g : SourceFile}
    (h : s.resolve? name = some g) : g ∈ s.files := by
  unfold Snapshot.resolve? at h
  simp only at h
  split at h
  · simp at h
  · simp only [Option.orElse_eq_orElse, Option.orElse_eq_or, Option.or_eq_some_iff] at h
    rcases h with h | ⟨-, h | ⟨-, h⟩⟩
    · exact List.mem_of_find?_eq_some h
    · exact List.mem_of_find?_eq_some h
    · exact List.mem_of_find?_eq_some h

theorem mem_of_resolveRoot? (h : f.resolveRoot? root = some r) :
    r ∈ f.snapshot.files.map (·.path) := by
  unfold resolveRoot? at h
  split at h
  · obtain ⟨g, hg, rfl⟩ := Option.map_eq_some_iff.mp h
    exact List.mem_map_of_mem (List.mem_of_find?_eq_some hg)
  · obtain ⟨g, hg, rfl⟩ := Option.map_eq_some_iff.mp h
    obtain ⟨name, -, hg⟩ := Option.bind_eq_some_iff.mp hg
    exact List.mem_map_of_mem (mem_of_resolve? hg)

/-- An absolute root is resolved to a file that is the same, if there is one. -/
theorem resolveRoot?_of_isAbsolute (habs : root.isAbsolute = true)
    (hg : g ∈ f.snapshot.files.map (·.path)) (hsame : g.Same root) :
    ∃ r, f.resolveRoot? root = some r ∧ r.Same root := by
  unfold resolveRoot?
  rw [if_pos habs]
  cases hfind : f.snapshot.files.find? fun g => decide (g.path.Same root) with
  | some r => exact ⟨r.path, rfl, by simpa using List.find?_some hfind⟩
  | none =>
    obtain ⟨file, hfile, rfl⟩ := List.mem_map.mp hg
    exact absurd hsame (by simpa using List.find?_eq_none.mp hfind file hfile)

theorem rootKey_of_eq_some (h : f.resolveRoot? root = some r) : f.rootKey root = f.key r := by
  unfold rootKey
  rw [h]

theorem rootKey_of_eq_none (h : f.resolveRoot? root = none) :
    f.rootKey root = if root.isAbsolute then f.key root else f.key (f.snapshot.root.join root) := by
  unfold rootKey
  rw [h]

/-- **The root's key is the root's file**, where every file of the corpus is absolute. -/
theorem rootKey_same (hm : f.InMemory) (habs : f.snapshot.root.isAbsolute = true)
    (hr : r ∈ f.snapshot.files.map (·.path)) : (f.rootKey r).Same r := by
  obtain ⟨r', hres, hsame⟩ := resolveRoot?_of_isAbsolute (hm.isAbsolute habs r hr) hr (Same.refl r)
  rw [rootKey_of_eq_some hres, hm.key]
  exact hsame

theorem file_rootNode (f : Finder) (name : String) :
    (f.rootNode name).file = (f.resolveRoot? (.ofString name)).getD (.ofString name) := rfl

theorem file_rootNode_of_eq_some {name : String} (h : f.resolveRoot? (.ofString name) = some r) :
    (f.rootNode name).file = r := by
  rw [file_rootNode, h, Option.getD_some]

/-- If the root gets the key of a file, then its name was resolved to that file; or it was resolved to
nothing, and is that file only by its components. -/
theorem resolveRoot?_of_rootKey_same (hm : f.InMemory) (habs : f.snapshot.root.isAbsolute = true)
    {name : String} (hg : g ∈ f.snapshot.files.map (·.path))
    (hkey : (f.rootKey (f.rootNode name).file).Same g) :
    f.resolveRoot? (.ofString name) = some g ∨
      f.resolveRoot? (.ofString name) = none ∧ (Path.ofString name).isAbsolute = false ∧
        (f.snapshot.root.join (.ofString name)).Same g := by
  rw [file_rootNode] at hkey
  cases hres : f.resolveRoot? (.ofString name) with
  | some r =>
    rw [hres, Option.getD_some] at hkey
    have hr := mem_of_resolveRoot? hres
    have hsame : r.Same g := (rootKey_same hm habs hr).symm.trans hkey
    rw [hm.apart.eq_of_same hr hg hsame]
    exact Or.inl rfl
  | none =>
    rw [hres, Option.getD_none, rootKey_of_eq_none hres, hm.key] at hkey
    cases hname : (Path.ofString name).isAbsolute with
    | true =>
      -- an absolute name that is the same as a file would have been resolved to it
      rw [if_pos hname] at hkey
      obtain ⟨r, hr, -⟩ := resolveRoot?_of_isAbsolute hname hg hkey.symm
      rw [hres] at hr
      exact absurd hr (by simp)
    | false =>
      rw [if_neg (by simp [hname])] at hkey
      exact Or.inr ⟨rfl, rfl, hkey⟩

theorem referrers_of_rootKey_same (hm : f.InMemory) (habs : f.snapshot.root.isAbsolute = true)
    {name : String} {found : List Path} (hg : g ∈ f.snapshot.files.map (·.path))
    (hkey : (f.rootKey (f.rootNode name).file).Same g)
    (h : f.inquiry.referrers (f.rootNode name).file = .ok found) :
    f.inquiry.referrers g = .ok found := by
  rcases resolveRoot?_of_rootKey_same hm habs hg hkey with hres | ⟨hres, -, hsame⟩
  · rwa [file_rootNode_of_eq_some hres] at h
  · rw [file_rootNode, hres, Option.getD_none] at h
    obtain ⟨n, hn⟩ := Snapshot.exists_fileName_of_referrers h
    refine Snapshot.referrers_congr ?_ h
    rw [← hsame.fileName?_eq, hn, fileName?_join hn]

/-- The file that a root stands for is one of the corpus, or the same as none of them. -/
theorem mem_or_not_same (hm : f.InMemory) (habs : f.snapshot.root.isAbsolute = true) (name : String) :
    (f.rootNode name).file ∈ f.snapshot.files.map (·.path) ∨
      ∀ g ∈ f.snapshot.files.map (·.path), ¬ (f.rootNode name).file.Same g := by
  rw [file_rootNode]
  cases hres : f.resolveRoot? (.ofString name) with
  | some r => exact Or.inl (mem_of_resolveRoot? hres)
  | none =>
    refine Or.inr fun g hg hsame => ?_
    rw [Option.getD_none] at hsame
    have hname : (Path.ofString name).isAbsolute = true := by
      rw [hsame.isAbsolute_eq]
      exact hm.isAbsolute habs g hg
    obtain ⟨r, hr, -⟩ := resolveRoot?_of_isAbsolute hname hg hsame.symm
    rw [hres] at hr
    exact absurd hr (by simp)

/-! ## Files that were met where they may be expanded -/

namespace Course

variable {name : String} {e : Expansion} {expanded : List (Nat × RefTree)} {n : Nat × RefTree}

theorem apart_files (hm : f.InMemory) (hc : f.Course root e expanded) :
    Apart (f.rootKey root :: expanded.map (·.2.file)) := by
  have h := hc.apart
  rw [hm.key] at h
  exact h

/-- Such a file has the root's key, or was expanded somewhere. -/
theorem rootKey_same_or_exists (hm : f.InMemory) (hc : f.Course root e expanded)
    (hn : n ∈ RefTree.nodesAll 1 e.root.links) (hw : f.inquiry.Worth n.1 n.2.file) :
    (f.rootKey root).Same n.2.file ∨ ∃ m ∈ expanded, m.2.file = n.2.file := by
  rcases hc.settled n hn with hvis | hnot
  · obtain ⟨k, hk, hsame⟩ := memSame_iff.mp hvis
    rw [f.key_inquiry, hm.key] at hsame
    rw [hm.key] at hk
    rcases List.mem_cons.mp hk with rfl | hk
    · exact Or.inl hsame
    · obtain ⟨m, hmem, rfl⟩ := List.mem_map.mp hk
      have hfile := hc.mem_files m (hc.expanded_subset m hmem)
      exact Or.inr ⟨m, hmem, hm.apart.eq_of_same hfile (hc.mem_files n hn) hsame⟩
  · exact absurd hw hnot

section Absolute

variable (hm : f.InMemory) (habs : f.snapshot.root.isAbsolute = true)
  (hr : r ∈ f.snapshot.files.map (·.path)) (hc : f.Course r e expanded)

include hm habs hr hc

/-- Below an absolute root no file is expanded twice, -/
theorem apart_expanded : Apart (((0, e.root) :: expanded).map (·.2.file)) := by
  rw [List.map_cons, hc.file]
  exact (hc.apart_files hm).cons_congr (rootKey_same hm habs hr)

theorem nodup_lookups : (e.lookups.map (·.file)).Nodup := by
  rw [hc.lookups_eq]
  exact (hc.apart_expanded hm habs hr).nodup

/-- and such a file is expanded somewhere: only the root's file has the root's key. -/
theorem exists_of_worth (hn : n ∈ RefTree.nodesAll 1 e.root.links)
    (hw : f.inquiry.Worth n.1 n.2.file) : ∃ m ∈ (0, e.root) :: expanded, m.2.file = n.2.file := by
  rcases hc.rootKey_same_or_exists hm hn hw with hkey | ⟨m, hmem, hfile⟩
  · have hsame : r.Same n.2.file := (rootKey_same hm habs hr).symm.trans hkey
    refine ⟨_, List.mem_cons_self, ?_⟩
    rw [hc.file]
    exact hm.apart.eq_of_same hr (hc.mem_files n hn) hsame
  · exact ⟨m, List.mem_cons_of_mem _ hmem, hfile⟩

end Absolute

/-- Without a bound on nodes the links of what was expanded are all its referrers. -/
theorem referrers_eq (hc : f.Course root e expanded) (hnodes : f.limits.maxNodes = none)
    (hn : n ∈ (0, e.root) :: expanded) :
    f.inquiry.referrers n.2.file = .ok (n.2.links.map (·.file)) := by
  obtain ⟨found, hf, -, hall⟩ := hc.searched_cons n hn
  rw [hall hnodes]
  exact hf

theorem referrers_root (hc : f.Course root e expanded) (hnodes : f.limits.maxNodes = none) :
    f.inquiry.referrers root = .ok (e.root.links.map (·.file)) := by
  have htop := hc.referrers_eq hnodes List.mem_cons_self
  rwa [hc.file] at htop

/-- The referrers of such a file are links somewhere in the tree. -/
theorem exists_referrers (hm : f.InMemory) (habs : f.snapshot.root.isAbsolute = true)
    (hnodes : f.limits.maxNodes = none) (hc : f.Course (f.rootNode name).file e expanded)
    (hn : n ∈ RefTree.nodesAll 1 e.root.links) (hw : f.inquiry.Worth n.1 n.2.file) :
    ∃ m ∈ (0, e.root) :: expanded, f.inquiry.referrers n.2.file = .ok (m.2.links.map (·.file)) := by
  rcases hc.rootKey_same_or_exists hm hn hw with hkey | ⟨m, hmem, hfile⟩
  · refine ⟨_, List.mem_cons_self, ?_⟩
    exact referrers_of_rootKey_same hm habs (hc.mem_files n hn) hkey (hc.referrers_root hnodes)
  · have hmem' := List.mem_cons_of_mem (0, e.root) hmem
    refine ⟨m, hmem', ?_⟩
    rw [← hfile]
    exact hc.referrers_eq hnodes hmem'

/-- What the files of the tree name determines their text. -/
theorem eq_of_same (hm : f.InMemory) (habs : f.snapshot.root.isAbsolute = true)
    (hc : f.Course (f.rootNode name).file e expanded) :
    ∀ m ∈ e.root.walk, ∀ n ∈ e.root.walk, m.2.file.Same n.2.file → m.2.file = n.2.file := by
  have hroot := mem_or_not_same hm habs name
  rw [← hc.file] at hroot
  intro m hm' n hn hsame
  rw [RefTree.walk_eq_cons] at hm' hn
  rcases List.mem_cons.mp hm' with rfl | hm'
  · rcases List.mem_cons.mp hn with rfl | hn
    · rfl
    · rcases hroot with hmem | hnone
      · exact hm.apart.eq_of_same hmem (hc.mem_files n hn) hsame
      · exact absurd hsame (hnone _ (hc.mem_files n hn))
  · rcases List.mem_cons.mp hn with rfl | hn
    · rcases hroot with hmem | hnone
      · exact hm.apart.eq_of_same (hc.mem_files m hm') hmem hsame
      · exact absurd hsame.symm (hnone _ (hc.mem_files m hm'))
    · exact hm.apart.eq_of_same (hc.mem_files m hm') (hc.mem_files n hn) hsame

end Course
end Citator.Finder

import Citator.Proofs.Expansion.Root

/-!
# `Citator.Proofs.Expansion.Once` — how often a file is expanded

A file whose key is visited is not expanded, and the keys of what was expanded are apart. So no file is
expanded twice, if only every file is visited under its own key. Links are. The root is visited under
a key that is looked up a second time, and below a relative corpus root the second look can miss: the
path `src/a.ts` of the first is no path below `src`. Then the root's own file counts as new when it is
met again, and it is expanded a second time.

The main result says when this happens, and that it is the worst that can.
-/

namespace Citator

open Citator.Path

def Expansion.searches (e : Expansion) (g : Path) : Nat :=
  e.lookups.countP fun l => decide (l.file.Same g)

/-- How many nodes of the tree stand for a file and have links. -/
def Expansion.branches (e : Expansion) (g : Path) : Nat :=
  e.root.walk.countP fun n => decide (n.2.file.Same g) && !n.2.isLeaf

namespace Finder

/-- No file of the corpus is expanded more than once. -/
structure Once (f : Finder) (e : Expansion) : Prop where
  searches : ∀ g ∈ f.snapshot.files.map (·.path), e.searches g ≤ 1
  branches : ∀ g ∈ f.snapshot.files.map (·.path), e.branches g ≤ 1
  expanded : e.stats.expanded ≤ f.snapshot.files.length

/-- Whether a file is met again below the root, where it may be expanded. -/
def Returns (f : Finder) (e : Expansion) (r : Path) : Prop :=
  ∃ n ∈ e.root.walk, 0 < n.1 ∧ n.2.file.Same r ∧ f.inquiry.Worth n.1 n.2.file

variable {f : Finder} {name : String} {r : Path} {e : Expansion}

namespace Course

variable {expanded : List (Nat × RefTree)}

theorem searches_eq (hc : f.Course r e expanded) (g : Path) :
    e.searches g = (r :: expanded.map (·.2.file)).countP fun p => decide (p.Same g) := by
  rw [← hc.lookups, List.countP_map]
  rfl

theorem branches_le_searches (hc : f.Course r e expanded) (g : Path) :
    e.branches g ≤ e.searches g := by
  have hsub : (e.root.walk.filter fun n => !n.2.isLeaf).Sublist ((0, e.root) :: expanded) := by
    rw [RefTree.walk_eq_cons, List.filter_cons]
    split
    · exact hc.branches.cons_cons _
    · exact hc.branches.cons _
  rw [hc.searches_eq, ← hc.lookups, hc.lookups_eq, List.countP_map]
  unfold Expansion.branches
  rw [← List.countP_filter]
  exact hsub.countP_le

theorem searches_le (hm : f.InMemory) (hc : f.Course r e expanded) (g : Path) :
    e.searches g ≤ if r.Same g then 2 else 1 := by
  have hap := (hc.apart_files hm).sublist (List.sublist_cons_self _ _)
  have hle := hap.countP_same_le_one g
  rw [hc.searches_eq]
  by_cases hr : r.Same g
  · rw [List.countP_cons_of_pos (by simpa using hr), if_pos hr]
    omega
  · rw [List.countP_cons_of_neg (by simpa using hr), if_neg hr]
    exact hle

/-- If the root's file is none of those that were expanded below it, no file is expanded twice. -/
theorem once_of_apart (hr : r ∈ f.snapshot.files.map (·.path)) (hc : f.Course r e expanded)
    (hap : Apart (r :: expanded.map (·.2.file))) : f.Once e := by
  have hsearch : ∀ g, e.searches g ≤ 1 := by
    intro g
    rw [hc.searches_eq]
    exact hap.countP_same_le_one g
  refine ⟨fun g _ => hsearch g, fun g _ => Nat.le_trans (hc.branches_le_searches g) (hsearch g), ?_⟩
  have hsub : (r :: expanded.map (·.2.file)) ⊆ f.snapshot.files.map (·.path) := by
    intro g hg
    rcases List.mem_cons.mp hg with rfl | hg
    · exact hr
    · obtain ⟨n, hn, rfl⟩ := List.mem_map.mp hg
      exact hc.mem_files n (hc.expanded_subset n hn)
  calc
    e.stats.expanded = (e.lookups.map (·.file)).length := by rw [hc.count, List.length_map]
    _ = (r :: expanded.map (·.2.file)).length := by rw [hc.lookups]
    _ ≤ (f.snapshot.files.map (·.path)).length := List.Nodup.length_le_of_subset hap.nodup hsub
    _ = f.snapshot.files.length := List.length_map _

/-- What is expanded below the root for the root's own file is just what `Returns` says, if the root
is visited under another key. -/
theorem returns_iff (hm : f.InMemory) (hc : f.Course r e expanded)
    (hkey : ¬ (f.rootKey r).Same r) : f.Returns e r ↔ ∃ n ∈ expanded, n.2.file.Same r := by
  constructor
  · rintro ⟨n, hn, hpos, hsame, hworth⟩
    rw [RefTree.walk_eq_cons] at hn
    rcases List.mem_cons.mp hn with rfl | hn
    · exact absurd hpos (Nat.lt_irrefl 0)
    · -- the file was visited, and not as the root, so it was expanded
      rcases hc.rootKey_same_or_exists hm hn hworth with hroot | ⟨m, hmem, hfile⟩
      · exact absurd (hroot.trans hsame) hkey
      · exact ⟨m, hmem, hfile ▸ hsame⟩
  · rintro ⟨n, hn, hsame⟩
    have hmem := hc.expanded_subset n hn
    exact ⟨n, RefTree.mem_walk_of_mem_nodesAll hmem, RefTree.le_depth_of_mem_nodesAll hmem, hsame,
      hc.worth n hn⟩

theorem once_iff_not_returns (hm : f.InMemory) (hr : r ∈ f.snapshot.files.map (·.path))
    (hc : f.Course r e expanded) : f.Once e ↔ (f.rootKey r).Same r ∨ ¬ f.Returns e r := by
  have hap := hc.apart_files hm
  by_cases hkey : (f.rootKey r).Same r
  · exact iff_of_true (hc.once_of_apart hr (hap.cons_congr hkey)) (Or.inl hkey)
  · rw [or_iff_right hkey, hc.returns_iff hm hkey]
    constructor
    · -- the root was searched for first, and then this node
      rintro honce ⟨n, hn, hsame⟩
      have htwo := honce.searches r hr
      have hone : 0 < (expanded.map (·.2.file)).countP fun p => decide (p.Same r) :=
        List.countP_pos_iff.mpr ⟨_, List.mem_map_of_mem hn, by simpa using hsame⟩
      rw [hc.searches_eq, List.countP_cons_of_pos (by simpa using Same.refl r)] at htwo
      omega
    · -- the visited keys were apart, and the root's file is none of them
      intro hnone
      refine hc.once_of_apart hr ((hap.sublist (List.sublist_cons_self _ _)).cons ?_)
      rw [memSame_eq_false_iff]
      rintro g hg hsame
      obtain ⟨n, hn, rfl⟩ := List.mem_map.mp hg
      exact hnone ⟨n, hn, hsame⟩

end Course

theorem once_of_leaf {p : Path} (hroot : e.root = .leaf p) (hlook : e.lookups = [])
    (hexp : e.stats.expanded = 0) : f.Once e ∧ ¬ f.Returns e r := by
  have hwalk : e.root.walk = [(0, .leaf p)] := by
    rw [hroot, RefTree.walk_leaf]
  refine ⟨⟨fun g _ => ?_, fun g _ => ?_, ?_⟩, ?_⟩
  · simp [Expansion.searches, hlook]
  · simp [Expansion.branches, hwalk, RefTree.isLeaf, RefTree.leaf, RefTree.links]
  · rw [hexp]
    exact Nat.zero_le _
  · rintro ⟨n, hn, hpos, -⟩
    rw [hwalk, List.mem_singleton] at hn
    subst hn
    exact absurd hpos (Nat.lt_irrefl 0)

/-- **When every file is expanded at most once**: if and only if the root is visited under its own
file's key, or that file is not met again where it may be expanded. The first is so below an absolute
root. Whatever the root, no other file is expanded twice, and the root's file not a third time. -/
theorem once_iff (hm : f.InMemory) (hr : f.resolveRoot? (.ofString name) = some r)
    (hb : f.build name = .ok e) :
    (f.Once e ↔ (f.rootKey r).Same r ∨ ¬ f.Returns e r) ∧
      (f.snapshot.root.isAbsolute = true → f.Once e) ∧
      ∀ g ∈ f.snapshot.files.map (·.path), e.searches g ≤ if r.Same g then 2 else 1 := by
  have hmem := mem_of_resolveRoot? hr
  have hfile := file_rootNode_of_eq_some hr
  suffices h : (f.Once e ↔ (f.rootKey r).Same r ∨ ¬ f.Returns e r) ∧
      ∀ g ∈ f.snapshot.files.map (·.path), e.searches g ≤ if r.Same g then 2 else 1 from
    ⟨h.1, fun habs => h.1.mpr (Or.inl (rootKey_same hm habs hmem)), h.2⟩
  rcases (course_of_build hb).2 with ⟨-, hroot, hlook, hexp⟩ | ⟨-, expanded, hc⟩
  · obtain ⟨honce, hret⟩ := once_of_leaf (f := f) (r := r) hroot hlook hexp
    refine ⟨iff_of_true honce (Or.inr hret), fun g _ => ?_⟩
    simp [Expansion.searches, hlook]
  · rw [hfile] at hc
    exact ⟨hc.once_iff_not_returns hm hmem, fun g _ => hc.searches_le hm g⟩

/-! ## A relative root -/

/-- Two files below `src` that refer to each other. -/
def pairBelowSrc : Finder := ofTexts "src" [("a.ts", "import './b'"), ("b.ts", "import './a'")]

theorem inMemory_pairBelowSrc : pairBelowSrc.InMemory := inMemory_ofTexts _ _

theorem resolveRoot?_pairBelowSrc :
    pairBelowSrc.resolveRoot? (.ofString "a") = some (.ofString "src/a.ts") := by decide +kernel

/-- The first of the two files is searched for twice. -/
theorem exists_build_pairBelowSrc : ∃ e, pairBelowSrc.build "a" = .ok e ∧ ¬ pairBelowSrc.Once e := by
  obtain ⟨e, hb, htwo⟩ : ∃ e, pairBelowSrc.build "a" = .ok e ∧
      e.searches (.ofString "src/a.ts") = 2 :=
    exists_build_of_map (m := (·.searches (.ofString "src/a.ts"))) (by decide +kernel)
  refine ⟨e, hb, fun honce => ?_⟩
  have hone := honce.searches _ (mem_of_resolveRoot? resolveRoot?_pairBelowSrc)
  rw [htwo] at hone
  exact absurd hone (by decide)

/-- So its key is another, and it is met again. -/
theorem once_iff_pairBelowSrc : ∃ e, pairBelowSrc.build "a" = .ok e ∧ ¬ pairBelowSrc.Once e ∧
    ¬ (pairBelowSrc.rootKey (.ofString "src/a.ts")).Same (.ofString "src/a.ts") ∧
      pairBelowSrc.Returns e (.ofString "src/a.ts") := by
  obtain ⟨e, hb, hnot⟩ := exists_build_pairBelowSrc
  have hiff := (once_iff inMemory_pairBelowSrc resolveRoot?_pairBelowSrc hb).1
  have hboth := hnot
  rw [hiff, not_or, not_not] at hboth
  exact ⟨e, hb, hnot, hboth.1, hboth.2⟩

/-- Not every build expands every file at most once. -/
theorem not_forall_once : ¬ ∀ (f : Finder) (name : String) (r : Path) (e : Expansion), f.InMemory →
    f.resolveRoot? (.ofString name) = some r → f.build name = .ok e → f.Once e := by
  intro hall
  obtain ⟨e, hb, hnot⟩ := exists_build_pairBelowSrc
  exact hnot (hall _ _ _ e inMemory_pairBelowSrc resolveRoot?_pairBelowSrc hb)

end Finder
end Citator

import Citator.Proofs.Expansion.Root

/-!
# `Citator.Proofs.Expansion.Depth` — what a greater depth finds, and what it can lose

A greater bound on depth does not only add to a tree. The traversal goes deep first, so it can come
upon a file for the first time right above the greater bound and expand it there, where nothing below
its referrers is expanded any more; later it meets the file near the root and passes over it, since it
was visited. With the smaller bound the deep place is out of reach, the file is expanded near the root,
and more is found below it.

The main result says that this is the only way to lose a file: each time it was met, it was met below a
node whose file the greater tree has at its bound and nowhere above. The first levels cannot be lost,
since the links of the root are all visited before any of them is expanded.
-/

namespace Citator

open Citator.Path

/-- A file stands in the tree above a depth. -/
def Expansion.HasAbove (e : Expansion) (depth : Nat) (g : Path) : Prop :=
  ∃ n ∈ e.root.walk, n.2.file = g ∧ n.1 < depth

/-- A file stands in the tree, but nowhere else than at a depth, and always as a leaf. -/
def Expansion.OnlyAt (e : Expansion) (depth : Nat) (g : Path) : Prop :=
  (∃ n ∈ e.root.walk, n.2.file = g) ∧
    ∀ n ∈ e.root.walk, n.2.file = g → n.1 = depth ∧ n.2.isLeaf = true

namespace Finder

def withMaxDepth (f : Finder) (d : Nat) : Finder :=
  { f with limits := { f.limits with maxDepth := some d } }

variable {f : Finder} {name : String} {root g : Path} {e : Expansion} {d : Nat}

theorem InMemory.withMaxDepth (hm : f.InMemory) (d : Nat) : (f.withMaxDepth d).InMemory :=
  ⟨hm.loaded, hm.key⟩

theorem worth_withMaxDepth_iff {depth : Nat} :
    (f.withMaxDepth d).inquiry.Worth depth g ↔ f.admits g = true ∧ depth < d := by
  simp [Inquiry.Worth, Inquiry.isDeep, inquiry, withMaxDepth]

/-! ## 1. One tree with a bound on depth -/

namespace Course

variable {expanded : List (Nat × RefTree)}

theorem lt_of_mem (hc : (f.withMaxDepth d).Course root e expanded) (hd : 0 < d) {m : Nat × RefTree}
    (hm : m ∈ (0, e.root) :: expanded) : m.1 < d := by
  have hmax : (f.withMaxDepth d).limits.maxDepth ≠ some 0 :=
    fun h => Nat.pos_iff_ne_zero.mp hd (Option.some.inj h)
  exact Inquiry.isDeep_eq_false_iff.mp (hc.isDeep_eq_false hmax hm) d rfl

theorem le_of_mem_walk (hc : (f.withMaxDepth d).Course root e expanded) (hd : 0 < d) :
    ∀ n ∈ e.root.walk, n.1 ≤ d :=
  hc.depth_le rfl (Nat.pos_iff_ne_zero.mp hd)

theorem hasAbove_or_onlyAt (hc : (f.withMaxDepth d).Course root e expanded) (hd : 0 < d)
    (hg : ∃ n ∈ e.root.walk, n.2.file = g) : e.HasAbove d g ∨ e.OnlyAt d g := by
  by_cases habove : e.HasAbove d g
  · exact Or.inl habove
  · refine Or.inr ⟨hg, fun n hn hfile => ?_⟩
    have hge : d ≤ n.1 := by
      by_contra hlt
      exact habove ⟨n, hn, hfile, Nat.lt_of_not_le hlt⟩
    refine ⟨Nat.le_antisymm (hc.le_of_mem_walk hd n hn) hge, ?_⟩
    -- with links it would have been expanded, and lie above the bound
    cases hlinks : n.2.links with
    | nil => simp [RefTree.isLeaf, hlinks]
    | cons c cs =>
      have hmem := hc.mem_of_mem_links hn (c := c) (by simp [hlinks])
      exact absurd (hc.lt_of_mem hd hmem) (Nat.not_lt.mpr hge)

end Course

/-! ## 2. Two trees with different bounds -/

namespace Course

variable {d' : Nat} {e' : Expansion} {expanded expanded' : List (Nat × RefTree)}

/-- Where the referrers of an expanded node are links in the other tree, its links stand there. -/
theorem exists_mem_walk (hc' : f.Course root e' expanded') {m' : Nat × RefTree}
    (hm' : m' ∈ (0, e'.root) :: expanded') {c : RefTree} {ls : List RefTree} (hlink : c ∈ ls)
    (heq : ls.map (·.file) = m'.2.links.map (·.file)) :
    ∃ n ∈ e'.root.walk, n.2.file = c.file ∧ n.1 = m'.1 + 1 := by
  have hfile : c.file ∈ m'.2.links.map (·.file) := by
    rw [← heq]
    exact List.mem_map_of_mem hlink
  obtain ⟨c', hlink', hcc⟩ := List.mem_map.mp hfile
  exact ⟨(m'.1 + 1, c'), RefTree.mem_walk_of_mem_nodesAll (hc'.mem_nodesAll_of_mem_links hm' hlink'),
    hcc, rfl⟩

section Bounds

variable (hm : f.InMemory) (habs : f.snapshot.root.isAbsolute = true)
  (hnodes : f.limits.maxNodes = none) (hlt : d < d')
  (hc : (f.withMaxDepth d).Course (f.rootNode name).file e expanded)
  (hc' : (f.withMaxDepth d').Course (f.rootNode name).file e' expanded')

include hnodes hc hc' in
theorem links_root_eq : e.root.links.map (·.file) = e'.root.links.map (·.file) :=
  Except.ok.inj ((hc.referrers_root hnodes).symm.trans (hc'.referrers_root hnodes))

include hm habs hnodes hc' in
/-- A file that the tree has above its bound was expanded somewhere in it. -/
theorem exists_of_hasAbove (hg : e'.HasAbove d' g) (hadm : f.admits g = true) :
    ∃ m ∈ (0, e'.root) :: expanded', f.inquiry.referrers g = .ok (m.2.links.map (·.file)) := by
  obtain ⟨n, hn, rfl, hdepth⟩ := hg
  rw [RefTree.walk_eq_cons] at hn
  rcases List.mem_cons.mp hn with rfl | hn
  · exact ⟨_, List.mem_cons_self, hc'.referrers_eq hnodes List.mem_cons_self⟩
  · have hworth := worth_withMaxDepth_iff.mpr ⟨hadm, hdepth⟩
    exact exists_referrers (f := f.withMaxDepth d') (hm.withMaxDepth d') habs hnodes hc' hn hworth

include hm habs hnodes hc' in
/-- A file that the root links to was expanded in the first two levels. -/
theorem exists_of_link_root (hg : g ∈ e'.root.links.map (·.file)) (hadm : f.admits g = true)
    (hd' : 1 < d') : ∃ m ∈ (0, e'.root) :: expanded', m.1 ≤ 1 ∧
      f.inquiry.referrers g = .ok (m.2.links.map (·.file)) := by
  have hmem : g ∈ f.snapshot.files.map (·.path) := by
    obtain ⟨c, hlink, rfl⟩ := List.mem_map.mp hg
    exact hc'.mem_files (1, c) (RefTree.mem_nodesAll_of_mem hlink)
  rcases hc'.links g hg (worth_withMaxDepth_iff.mpr ⟨hadm, hd'⟩) with hkey | ⟨t, ht, hsame⟩
  · refine ⟨_, List.mem_cons_self, Nat.zero_le 1, ?_⟩
    rw [(hm.withMaxDepth d').key] at hkey
    exact referrers_of_rootKey_same hm habs hmem hkey (hc'.referrers_root hnodes)
  · have ht' := List.mem_cons_of_mem (0, e'.root) ht
    refine ⟨_, ht', Nat.le_refl 1, ?_⟩
    rw [(hm.withMaxDepth d').key] at hsame
    have hfile := hc'.mem_files _ (hc'.expanded_subset _ ht)
    rw [← hm.apart.eq_of_same hfile hmem hsame]
    exact hc'.referrers_eq hnodes ht'

include hnodes hc in
theorem mem_links_root_of_depth_one (hc' : (f.withMaxDepth d').Course (f.rootNode name).file e' expanded')
    {m : Nat × RefTree} (hexp : m ∈ expanded) (hone : m.1 = 1) :
    m.2.file ∈ e'.root.links.map (·.file) := by
  obtain ⟨k, hk, hlink, hdepth⟩ := hc.exists_parent m (hc.expanded_subset m hexp)
  rw [← links_root_eq hnodes hc hc']
  rcases List.mem_cons.mp hk with rfl | hk
  · exact List.mem_map_of_mem hlink
  · have hle := RefTree.le_depth_of_mem_nodesAll (hc.expanded_subset k hk)
    omega

include hm habs hnodes hlt hc hc' in
/-- A link of a node whose file the greater tree has above its bound. -/
theorem hasAbove_or_onlyAt_of_link {m : Nat × RefTree} {c : RefTree} (hexp : m ∈ expanded)
    (hlink : c ∈ m.2.links) (habove : e'.HasAbove d' m.2.file) :
    e'.HasAbove d' c.file ∨ (3 ≤ m.1 + 1 ∧ e'.OnlyAt d' c.file) := by
  obtain ⟨hadm, hmd⟩ := worth_withMaxDepth_iff.mp (hc.worth m hexp)
  have href := hc.referrers_eq hnodes (List.mem_cons_of_mem _ hexp)
  by_cases hone : m.1 = 1
  · -- the file of `m` was expanded in the first two levels, so its links stand in the first three
    have hg := mem_links_root_of_depth_one hnodes hc hc' hexp hone
    obtain ⟨m', hm', hle, href'⟩ := exists_of_link_root hm habs hnodes hc' hg hadm (by omega)
    obtain ⟨n, hn, hfile, hdepth⟩ :=
      hc'.exists_mem_walk hm' hlink (Except.ok.inj (href.symm.trans href'))
    exact Or.inl ⟨n, hn, hfile, by omega⟩
  · -- it was expanded somewhere, and `c` stands below that, perhaps at the bound
    obtain ⟨m', hm', href'⟩ := exists_of_hasAbove hm habs hnodes hc' habove hadm
    obtain ⟨n, hn, hfile, -⟩ :=
      hc'.exists_mem_walk hm' hlink (Except.ok.inj (href.symm.trans href'))
    have hge := RefTree.le_depth_of_mem_nodesAll (hc.expanded_subset m hexp)
    rcases hc'.hasAbove_or_onlyAt (by omega) ⟨n, hn, hfile⟩ with h | h
    · exact Or.inl h
    · exact Or.inr ⟨by omega, h⟩

include hm habs hnodes hlt hc hc' in
/-- What becomes of a node of the smaller tree, from the root down. Its file stands above the bound of
the greater tree; or at the bound only; or the node stands below one of which the second is true. -/
theorem hasAbove_or (hd : 0 < d) : ∀ n ∈ e.root.walk, e'.HasAbove d' n.2.file ∨
    (3 ≤ n.1 ∧ e'.OnlyAt d' n.2.file) ∨
      ∃ m ∈ e.root.walk, 3 ≤ m.1 ∧ m.1 < d ∧ m.1 < n.1 ∧ n ∈ m.2.nodes m.1 ∧
        e'.OnlyAt d' m.2.file := by
  refine hc.induction ?_ ?_
  · refine Or.inl ⟨(0, e'.root), hc'.mem_walk List.mem_cons_self, ?_, by omega⟩
    show e'.root.file = e.root.file
    rw [hc.file, hc'.file]
  · intro m hm' c hlink ih
    have hmd := hc.lt_of_mem hd hm'
    rcases List.mem_cons.mp hm' with rfl | hexp
    · -- the links of the root stand right below it in both trees
      obtain ⟨n, hn, hfile, hdepth⟩ := hc'.exists_mem_walk List.mem_cons_self hlink
        (links_root_eq hnodes hc hc')
      exact Or.inl ⟨n, hn, hfile, by omega⟩
    · rcases ih with habove | ⟨hthree, honly⟩ | ⟨k, hk, hthree, hkd, hkm, hmk, honly⟩
      · rcases hasAbove_or_onlyAt_of_link hm habs hnodes hlt hc hc' hexp hlink habove with h | h
        · exact Or.inl h
        · exact Or.inr (Or.inl h)
      · exact Or.inr (Or.inr ⟨m, hc.mem_walk hm', hthree, hmd, Nat.lt_succ_self _,
          RefTree.mem_nodes_of_mem_links hlink, honly⟩)
      · exact Or.inr (Or.inr ⟨k, hk, hthree, hkd, Nat.lt_succ_of_lt hkm,
          RefTree.nodes_subset hmk (RefTree.mem_nodes_of_mem_links hlink), honly⟩)

end Bounds
end Course

/-! ## 3. What a greater bound can lose -/

/-- The file of every node of a tree with a bound on depth is among its filenames: where no disk
stands behind the paths, no spelling of a file is dropped. -/
theorem mem_filenames_withMaxDepth_iff {expanded : List (Nat × RefTree)} (hm : f.InMemory)
    (habs : f.snapshot.root.isAbsolute = true)
    (hc : (f.withMaxDepth d).Course (f.rootNode name).file e expanded) :
    g ∈ e.root.filenames ↔ ∃ n ∈ e.root.walk, n.2.file = g := by
  have htext := Course.eq_of_same (f := f.withMaxDepth d) (hm.withMaxDepth d) habs hc
  rw [RefTree.walk_eq_nodes] at htext ⊢
  exact RefTree.mem_filenames_iff 0 htext

/-- **What a greater bound on depth loses.** Take any node of the smaller tree. Its file is in the
greater tree, or the node stands below another, at depth three or more and above the bound, whose file
the greater tree has at its bound only, and there as a leaf. So a file is lost only if every node that
stood for it stood below such a one. No node down to depth three stands for a file that is lost, and
with a bound of three or less none is lost at all. -/
theorem mem_filenames_of_lt {d' : Nat} {e' : Expansion} (hm : f.InMemory)
    (habs : f.snapshot.root.isAbsolute = true) (hnodes : f.limits.maxNodes = none) (hlt : d < d')
    (hb : (f.withMaxDepth d).build name = .ok e) (hb' : (f.withMaxDepth d').build name = .ok e') :
    (∀ n ∈ e.root.walk, n.2.file ∈ e'.root.filenames ∨
      ∃ m ∈ e.root.walk, 3 ≤ m.1 ∧ m.1 < d ∧ m.1 < n.1 ∧ n ∈ m.2.nodes m.1 ∧
        e'.OnlyAt d' m.2.file) ∧
    (∀ n ∈ e.root.walk, n.1 ≤ 3 → n.2.file ∈ e'.root.filenames) ∧
    (d ≤ 3 → e.root.filenames ⊆ e'.root.filenames) := by
  obtain ⟨expanded', hc'⟩ : ∃ expanded', (f.withMaxDepth d').Course (f.rootNode name).file e' expanded' := by
    rcases (course_of_build hb').2 with ⟨hzero, -⟩ | ⟨-, hc'⟩
    · have hz : d' = 0 := by simpa [withMaxDepth] using hzero
      omega
    · exact hc'
  have hmem : ∀ n ∈ e.root.walk, n.2.file ∈ e'.root.filenames ∨
      ∃ m ∈ e.root.walk, 3 ≤ m.1 ∧ m.1 < d ∧ m.1 < n.1 ∧ n ∈ m.2.nodes m.1 ∧
        e'.OnlyAt d' m.2.file := by
    intro n hn
    rw [mem_filenames_withMaxDepth_iff hm habs hc']
    rcases (course_of_build hb).2 with ⟨-, hroot, -⟩ | ⟨hpos, expanded, hc⟩
    · -- with the bound zero there is only the root
      rw [hroot, RefTree.walk_eq_cons] at hn
      obtain rfl := List.mem_singleton.mp hn
      exact Or.inl ⟨(0, e'.root), hc'.mem_walk List.mem_cons_self, hc'.file⟩
    · have hd : 0 < d := Nat.pos_of_ne_zero fun hz => hpos (by simp [withMaxDepth, hz])
      rcases Course.hasAbove_or hm habs hnodes hlt hc hc' hd n hn with
        ⟨k, hk, hfile, -⟩ | ⟨-, hsome, -⟩ | hbelow
      · exact Or.inl ⟨k, hk, hfile⟩
      · exact Or.inl hsome
      · exact Or.inr hbelow
  refine ⟨hmem, ?_, ?_⟩
  · intro n hn hthree
    refine (hmem n hn).resolve_right ?_
    rintro ⟨m, -, hm3, -, hmn, -⟩
    omega
  · intro hd p hp
    obtain ⟨n, hn, rfl⟩ := List.mem_map.mp (mem_of_mem_distinct hp)
    refine (hmem n hn).resolve_right ?_
    rintro ⟨m, -, hm3, hmd, -⟩
    omega

/-! ## 4. A file that is lost -/

/-- Two ways lead from `r.ts` to `x.ts`, a short one and a long one that is tried first. -/
def twoWays : Finder :=
  ofTexts "/p" [("r.ts", ""), ("a.ts", "'./r'"), ("b.ts", "'./r'"), ("c.ts", "'./a'"),
    ("d.ts", "'./c'"), ("x.ts", "'./d' './b'"), ("y.ts", "'./x'"), ("z.ts", "'./y'")]

theorem inMemory_twoWays : twoWays.InMemory := inMemory_ofTexts _ _

theorem isAbsolute_root_twoWays : twoWays.snapshot.root.isAbsolute = true := by decide +kernel

/-- Whether the tree of an expansion has the file that refers to `y.ts`. -/
def hasLast (e : Expansion) : Bool :=
  decide (Path.ofString "/p/z.ts" ∈ distinct ((e.root.nodes 0).map (·.2.file)))

theorem hasLast_eq_true_iff : hasLast e = true ↔ Path.ofString "/p/z.ts" ∈ e.root.filenames := by
  rw [RefTree.filenames_eq, hasLast, decide_eq_true_iff]

theorem exists_build_twoWays_four : ∃ e, (twoWays.withMaxDepth 4).build "r" = .ok e ∧
    Path.ofString "/p/z.ts" ∈ e.root.filenames := by
  have hmap : ((twoWays.withMaxDepth 4).build "r").toOption.map hasLast = some true := by
    decide +kernel
  obtain ⟨e, hb, h⟩ := exists_build_of_map hmap
  exact ⟨e, hb, hasLast_eq_true_iff.mp h⟩

theorem exists_build_twoWays_five : ∃ e, (twoWays.withMaxDepth 5).build "r" = .ok e ∧
    Path.ofString "/p/z.ts" ∉ e.root.filenames := by
  have hmap : ((twoWays.withMaxDepth 5).build "r").toOption.map hasLast = some false := by
    decide +kernel
  obtain ⟨e, hb, h⟩ := exists_build_of_map hmap
  refine ⟨e, hb, fun hmem => ?_⟩
  rw [hasLast_eq_true_iff.mpr hmem] at h
  exact absurd h (by simp)

/-- Wherever the lost file stood, it stood deeper than three, below a node that is at the bound now; and
it stood somewhere. -/
theorem mem_filenames_of_lt_twoWays : ∃ e e', (twoWays.withMaxDepth 4).build "r" = .ok e ∧
    (twoWays.withMaxDepth 5).build "r" = .ok e' ∧
    (∃ n ∈ e.root.walk, n.2.file = .ofString "/p/z.ts") ∧
    ∀ n ∈ e.root.walk, n.2.file = .ofString "/p/z.ts" → 3 < n.1 ∧
      ∃ m ∈ e.root.walk, 3 ≤ m.1 ∧ m.1 < 4 ∧ m.1 < n.1 ∧ n ∈ m.2.nodes m.1 ∧
        e'.OnlyAt 5 m.2.file := by
  obtain ⟨e, hb, hmem⟩ := exists_build_twoWays_four
  obtain ⟨e', hb', hnot⟩ := exists_build_twoWays_five
  obtain ⟨hlost, hfirst, -⟩ :=
    mem_filenames_of_lt inMemory_twoWays isAbsolute_root_twoWays rfl (by decide) hb hb'
  refine ⟨e, e', hb, hb', List.mem_map.mp (mem_of_mem_distinct hmem), ?_⟩
  intro n hn hfile
  rw [← hfile] at hnot
  exact ⟨Nat.lt_of_not_le fun hthree => hnot (hfirst n hn hthree), (hlost n hn).resolve_left hnot⟩

/-- A greater bound on depth can lose a file, even with a gate that admits everything. -/
theorem not_forall_mem_filenames : ¬ ∀ (f : Finder) (name : String) (d : Nat) (e e' : Expansion)
    (p : Path), f.InMemory → f.snapshot.root.isAbsolute = true → (∀ g, f.admits g = true) →
      f.limits.maxNodes = none → (f.withMaxDepth d).build name = .ok e →
      (f.withMaxDepth (d + 1)).build name = .ok e' → p ∈ e.root.filenames →
      p ∈ e'.root.filenames := by
  intro hall
  obtain ⟨e, hb, hmem⟩ := exists_build_twoWays_four
  obtain ⟨e', hb', hnot⟩ := exists_build_twoWays_five
  exact hnot (hall twoWays "r" 4 e e' _ inMemory_twoWays isAbsolute_root_twoWays (fun _ => rfl) rfl
    hb hb' hmem)

end Finder
end Citator

import Citator.Proofs.Corpus.Memory
import Citator.Proofs.Expansion.Assembly
import Citator.Proofs.Expansion.Course
import Citator.Proofs.Expansion.Rounds

/-!
# `Citator.Proofs.Expansion.Counts` — the counts of an expansion are those of its tree

The counts are kept while the worklist runs, and the tree is put together from the slots afterwards. So
what is to be shown is said of the worklist: `InStep` ties the counts to the slots and to the stack,
one step keeps it (`InStep.round`), and so does a run of any length, cut short or not (`InStep.run`).
Each slot in it is accounted for or waits on the stack. When nothing waits any more, every slot is
accounted for.

That the slots are the nodes of the tree is `OneTree` (`Citator.Proofs.Expansion.Assembly`), which is
one part of `InStep`. Putting the tree together passes over a slot that is not there, so a slot that
was lost would show in no error; the counts would be wrong. They are not (`stats_of_build`).
-/

namespace Citator

open scoped List

namespace Worklist

variable {q : Inquiry} {root : Path} {depths : List Nat}

/-- The counts are in step with the slots and the stack. -/
structure InStep (root : Path) (w : Worklist) (depths : List Nat) : Prop where
  tree : OneTree root w.slots depths
  /-- The stack knows how deep the slots lie that wait. -/
  waiting : ∀ x ∈ w.waiting, depths[x.1]? = some x.2
  nodes : w.progress.stats.nodes = w.slots.size
  reached : w.progress.stats.maxDepthReached = depths.foldl max 0
  /-- A node is accounted for, or waits. -/
  accounted : w.progress.stats.accounted + w.waiting.length = w.progress.stats.nodes

theorem of_mem_stackOf {first depth : Nat} {links : List (Path × Verdict)} {x : Nat × Nat}
    (hx : x ∈ stackOf first depth links) :
    x.2 = depth ∧ first ≤ x.1 ∧ x.1 < first + links.length := by
  induction links generalizing first with
  | nil => exact absurd hx (by simp [stackOf, waitingSlots])
  | cons link rest ih =>
    obtain ⟨f, v⟩ := link
    rw [List.length_cons]
    by_cases hv : v = .scheduled
    · subst hv
      rw [stackOf_cons_node] at hx
      rcases List.mem_cons.mp hx with rfl | hx
      · exact ⟨rfl, Nat.le_refl _, by simp⟩
      · obtain ⟨hdepth, hle, hlt⟩ := ih hx
        exact ⟨hdepth, by omega, by omega⟩
    · rw [stackOf_cons_leaf first depth hv] at hx
      obtain ⟨hdepth, hle, hlt⟩ := ih hx
      exact ⟨hdepth, by omega, by omega⟩

theorem length_stackOf (first depth : Nat) (links : List (Path × Verdict)) :
    (stackOf first depth links).length = (Inquiry.scheduled links).length := by
  induction links generalizing first with
  | nil => rfl
  | cons link rest ih =>
    obtain ⟨f, v⟩ := link
    by_cases hv : v = .scheduled
    · subst hv
      rw [stackOf_cons_node, Inquiry.scheduled_cons_node, List.length_cons, List.length_cons, ih]
    · rw [stackOf_cons_leaf first depth hv, Inquiry.scheduled_cons_leaf hv, ih]

/-- **One step keeps the counts in step**: the slot on top of the stack is searched for, and what was
found is attached. -/
theorem InStep.round {slots : Array Slot} {id depth : Nat} {waiting : List (Nat × Nat)}
    {p p' : Progress} {f : Path} {found : List Path} {links : List (Path × Verdict)}
    (h : InStep root ⟨slots, (id, depth) :: waiting, p⟩ depths)
    (hr : q.Round (depth + 1) f found p links p') :
    InStep root ⟨addSlots slots id (links.map (·.1)),
        stackOf slots.size (depth + 1) links ++ waiting, p'⟩
      (depths ++ List.replicate links.length (depth + 1)) := by
  have htally := hr.tallied
  have hlen : depths.length = slots.size := h.tree.length
  have hnodes : p.stats.nodes = slots.size := h.nodes
  constructor
  case tree =>
    have htree := h.tree.addSlots (h.waiting _ List.mem_cons_self) (links.map (·.1))
    rwa [List.length_map] at htree
  case waiting =>
    intro x hx
    rcases List.mem_append.mp hx with hx | hx
    · -- the new slots come behind the old ones, all at the depth of the round
      obtain ⟨hdepth, hle, hlt⟩ := of_mem_stackOf hx
      rw [List.getElem?_append_right (by omega), hdepth, List.getElem?_replicate, if_pos (by omega)]
    · have hold := h.waiting x (List.mem_cons_of_mem _ hx)
      rw [List.getElem?_append_left (List.getElem?_eq_some_iff.mp hold).1]
      exact hold
  case nodes =>
    show p'.stats.nodes = (addSlots slots id (links.map (·.1))).size
    rw [htally.nodes, size_addSlots, List.length_map, ← hnodes]
    rfl
  case reached =>
    show p'.stats.maxDepthReached = _
    rw [htally.reached, List.foldl_append, ← h.reached]
    rfl
  case accounted =>
    have hold := h.accounted
    have hacc := htally.accounted
    have hn := htally.nodes
    show p'.stats.accounted + _ = p'.stats.nodes
    rw [List.length_append, length_stackOf]
    simp only [Progress.lookedUp, Stats.accounted, List.length_cons] at hold hacc hn ⊢
    omega

/-- **A whole run keeps the counts in step.** -/
theorem InStep.run {fuel : Nat} {w w' : Worklist} (h : InStep root w depths)
    (hrun : run q fuel w = .ok w') : ∃ depths', InStep root w' depths' := by
  induction fuel generalizing w depths with
  | zero =>
    obtain rfl : w = w' := Except.ok.inj hrun
    exact ⟨depths, h⟩
  | succ fuel ih =>
    obtain ⟨slots, waiting, p⟩ := w
    cases waiting with
    | nil =>
      rw [run_of_nothing_waits] at hrun
      obtain rfl := Except.ok.inj hrun
      exact ⟨depths, h⟩
    | cons top waiting =>
      obtain ⟨id, depth⟩ := top
      have hlt := h.tree.lt_size (h.waiting _ List.mem_cons_self)
      have hs := Array.getElem?_eq_getElem hlt
      cases hlook : q.referrers slots[id].file with
      | error err =>
        rw [run_succ_error hs hlook] at hrun
        exact absurd hrun (by simp)
      | ok found =>
        obtain ⟨links, p₂, hopens⟩ := Inquiry.exists_opens (depth + 1) p hlook
        rw [run_succ_ok hs hopens] at hrun
        exact ih (h.round hopens.round) hrun

/-- At the start the root waits, and is the only node. -/
theorem inStep_start {f : Finder} (root : Path) :
    InStep root (.start root (f.initial root)) [0] := by
  refine ⟨oneTree_start root, fun x hx => ?_, rfl, rfl, rfl⟩
  rw [List.mem_singleton.mp hx]
  rfl

end Worklist

namespace Finder

variable {f : Finder} {name : String} {e : Expansion}

/-- The worklist of a successful build, when nothing waits any more. -/
theorem exists_run_of_build (hb : f.build name = .ok e) (hmax : f.limits.maxDepth ≠ some 0) :
    ∃ w depths,
      Worklist.run f.inquiry f.searchBound
        (.start (f.rootNode name).file (f.initial (f.rootNode name).file)) = .ok w ∧
      w.waiting = [] ∧ Worklist.InStep (f.rootNode name).file w depths ∧
      e.root = .node (f.rootNode name).file w.links ∧ e.stats = w.progress.stats := by
  rcases (grows_of_build hb).2 with ⟨hzero, -⟩ | ⟨-, ls, p, hg, hroot, hstats, -⟩
  · exact absurd hzero hmax
  · have hfuel : p.lookups.length ≤ (f.initial (f.rootNode name).file).lookups.length + f.searchBound := by
      rw [show (f.initial (f.rootNode name).file).lookups = [] from rfl, List.length_nil, Nat.zero_add]
      exact lookups_le_searchBound hg
    obtain ⟨slots, hrun, rfl⟩ := Inquiry.run_start_of_grows hg hfuel
    obtain ⟨depths, hstep⟩ := (Worklist.inStep_start _).run hrun
    exact ⟨_, depths, hrun, rfl, hstep, hroot, hstats⟩

theorem nodes_of_build (hb : f.build name = .ok e) : e.stats.nodes = e.root.nodeCount := by
  by_cases hmax : f.limits.maxDepth = some 0
  · rcases (grows_of_build hb).2 with ⟨-, hroot, hstats, -⟩ | ⟨hne, -⟩
    · rw [hroot, hstats, RefTree.nodeCount, RefTree.walk_leaf]
      rfl
    · exact absurd hmax hne
  · obtain ⟨w, depths, -, -, hstep, hroot, hstats⟩ := exists_run_of_build hb hmax
    have hlen := hstep.tree.walk_perm.length_eq
    rw [List.length_map, List.length_zip, List.length_map, hstep.tree.length] at hlen
    rw [hroot, hstats, hstep.nodes, RefTree.nodeCount, hlen]
    exact (Nat.min_self _).symm

theorem maxDepthReached_of_build (hb : f.build name = .ok e) :
    e.stats.maxDepthReached = e.root.depth := by
  by_cases hmax : f.limits.maxDepth = some 0
  · rcases (grows_of_build hb).2 with ⟨-, hroot, hstats, -⟩ | ⟨hne, -⟩
    · rw [hroot, hstats, RefTree.depth, RefTree.walk_leaf]
      rfl
    · exact absurd hmax hne
  · obtain ⟨w, depths, -, -, hstep, hroot, hstats⟩ := exists_run_of_build hb hmax
    -- the depths of the nodes are those of the slots
    have hperm := hstep.tree.walk_perm.map Prod.fst
    rw [List.map_map, List.map_fst_zip (by simp [hstep.tree.length])] at hperm
    rw [hroot, hstats, hstep.reached, RefTree.depth]
    exact (hperm.foldl_eq 0).symm

theorem accounted_of_build (hb : f.build name = .ok e) (hmax : f.limits.maxDepth ≠ some 0) :
    e.stats.nodes = e.stats.accounted := by
  obtain ⟨w, depths, -, hwait, hstep, -, hstats⟩ := exists_run_of_build hb hmax
  have hacc := hstep.accounted
  rw [hwait] at hacc
  rw [hstats]
  exact hacc.symm

theorem scanned_of_build (hb : f.build name = .ok e) :
    e.stats.filesScanned = f.snapshot.files.length ∧
      e.stats.unreadableSkipped = f.snapshot.skipped.length := by
  rcases (grows_of_build hb).2 with ⟨-, -, hstats, -⟩ | ⟨-, ls, p, hg, -, hstats, -⟩
  · rw [hstats]
    exact ⟨rfl, rfl⟩
  · rw [hstats]
    refine hg.invariant (P := fun p => p.stats.filesScanned = f.snapshot.files.length ∧
      p.stats.unreadableSkipped = f.snapshot.skipped.length) (fun hr hp => ?_) ⟨rfl, rfl⟩
    rw [hr.tallied.scanned, hr.tallied.unreadable]
    exact hp

/-- **The counts of a build account for its tree.** They are its nodes and its height, and the files
that the corpus lists. Every node was expanded, or is a leaf for just one of the reasons. No slot was
lost or doubled when the tree was put together. -/
theorem stats_of_build {c : Corpus} {policy : ReadPolicy}
    (hload : Snapshot.load c policy = .ok f.snapshot) (hb : f.build name = .ok e) :
    e.stats.nodes = e.root.nodeCount ∧
      e.stats.maxDepthReached = e.root.depth ∧
      e.stats.filesScanned + e.stats.unreadableSkipped = c.files.length ∧
      (f.limits.maxDepth ≠ some 0 →
        e.stats.nodes = e.stats.expanded + e.stats.skippedVisited + e.stats.skippedGate +
          e.stats.skippedDepth ∧
        ∃ w, Worklist.run f.inquiry f.searchBound (.start e.root.file (f.initial e.root.file)) = .ok w ∧
          w.links = e.root.links ∧
          e.root.walk.map (·.2.file) ~ w.slots.toList.map (·.file)) ∧
      (f.limits.maxDepth = some 0 → e.stats.nodes = 1 ∧ e.stats.expanded = 0) := by
  refine ⟨nodes_of_build hb, maxDepthReached_of_build hb, ?_, fun hmax => ⟨?_, ?_⟩, fun hmax => ?_⟩
  · obtain ⟨hscan, hskip⟩ := scanned_of_build hb
    rw [hscan, hskip]
    exact Snapshot.length_of_load hload
  · exact accounted_of_build hb hmax
  · obtain ⟨w, depths, hrun, -, hstep, hroot, -⟩ := exists_run_of_build hb hmax
    have hperm := hstep.tree.walk_perm.map Prod.snd
    rw [List.map_map, List.map_snd_zip (by simp [hstep.tree.length])] at hperm
    rw [file_root_of_build hb, hroot]
    exact ⟨w, hrun, rfl, hperm⟩
  · rcases (grows_of_build hb).2 with ⟨-, -, hstats, -⟩ | ⟨hne, -⟩
    · rw [hstats]
      exact ⟨rfl, rfl⟩
    · exact absurd hmax hne

/-! ## A build with every reason for a leaf -/

/-- Files with a circle, and one that cannot be read. -/
def sevenFiles : MemoryCorpus :=
  .ofList (.ofString "/p") [(.ofString "a.ts", some "'./c'"), (.ofString "b.ts", some "'./a'"),
    (.ofString "c.ts", some "'./a'"), (.ofString "d.ts", some "'./a'"), (.ofString "x.ts", some "'./b'"),
    (.ofString "y.ts", some "'./c'"), (.ofString "z.ts", none)]

/-- A finder over them that does not expand `d.ts`. The bound on nodes leaves no room for `y.ts`. -/
def boundedFinder : Finder where
  snapshot := (Snapshot.load sevenFiles.toCorpus .skip).toOption.getD ⟨.ofString "/p", [], []⟩
  extensions := ["ts"]
  admits p := !decide (p.Same (.ofString "/p/d.ts"))
  limits := { maxDepth := some 2, maxNodes := some 6 }

theorem load_sevenFiles : Snapshot.load sevenFiles.toCorpus .skip = .ok boundedFinder.snapshot :=
  Snapshot.load_eq_of_isSome (s := ⟨.ofString "/p", [], []⟩) (by decide +kernel)

/-- What it counts: the tree is cut short, and there is a leaf for every reason. -/
def boundedCounts : Stats where
  filesScanned := 6
  unreadableSkipped := 1
  nodes := 6
  expanded := 3
  skippedVisited := 1
  skippedGate := 1
  skippedDepth := 1
  maxDepthReached := 2
  truncated := true

/-- The corpus lists seven files, and the tree has a node for each of the six slots. -/
theorem stats_of_build_boundedFinder : ∃ e, boundedFinder.build "a" = .ok e ∧
    e.stats = boundedCounts ∧ e.root.nodeCount = 6 ∧ e.root.depth = 2 ∧
      sevenFiles.toCorpus.files.length = 7 ∧
      ∃ w : Worklist, w.links = e.root.links ∧
        e.root.walk.map (·.2.file) ~ w.slots.toList.map (·.file) := by
  obtain ⟨e, hb, hstats⟩ : ∃ e, boundedFinder.build "a" = .ok e ∧ e.stats = boundedCounts :=
    exists_build_of_map (m := (·.stats)) (by decide +kernel)
  obtain ⟨hnodes, hdepth, hfiles, hsum, -⟩ := stats_of_build load_sevenFiles hb
  obtain ⟨-, w, -, hlinks, hslots⟩ := hsum (by decide)
  rw [hstats] at hnodes hdepth hfiles
  exact ⟨e, hb, hstats, hnodes.symm, hdepth.symm, hfiles.symm, w, hlinks, hslots⟩

end Finder
end Citator

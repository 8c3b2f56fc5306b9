import Citator.Proofs.Expansion.Attach
import Citator.Proofs.RefTree.Nodes

/-!
# `Citator.Proofs.Expansion.Growth` — every expansion comes to an end, and what it leaves behind

Three things about a growth from `p` to `p'`, each by induction on the rules.

* **The account** (`Grows.account`): the files searched for on the way are the links that were
  scheduled at the start and the files that were visited on the way, each as often as it is there. A
  file is searched for because it was scheduled, and scheduling is visiting; the root alone is
  scheduled without that.
* **Keys stay apart** (`Grows.apart`), so no two files that were visited on the way have the same key.
* **It ends** (`grows_or_halts`). What grows smaller is `unvisited` together with the scheduled links
  that wait: a search takes one scheduled link away, and every link that it schedules is a file less
  to visit.
-/

namespace Citator.Inquiry

open Citator.Path
open scoped List

variable {q : Inquiry} {depth : Nat} {links : List (Path × Verdict)} {p p' : Progress}
  {ts : List RefTree} {h : Halt}

/-! ## 1. The account of a growth -/

/-- A tree whose root was searched for: its links are the referrers, up to where the tree was full. -/
def Searched (q : Inquiry) (t : RefTree) : Prop :=
  ∃ found, q.referrers t.file = .ok found ∧ t.links.map (·.file) <+: found ∧
    (q.limits.maxNodes = none → t.links.map (·.file) = found)

/-- What was done on the way from `p` to `p'`: the nodes that were expanded, in pre-order, and the
files that were marked as visited. -/
structure Account (q : Inquiry) (depth : Nat) (links : List (Path × Verdict)) (p p' : Progress)
    (ts : List RefTree) (expanded : List (Nat × RefTree)) (marked : List Path) : Prop where
  visited : p'.visited = marked.map q.key ++ p.visited
  lookups : p'.lookups.map (·.file) =
    (expanded.map (·.2.file)).reverse ++ p.lookups.map (·.file)
  /-- A node is expanded because its link was scheduled at the start or marked on the way. -/
  files : expanded.map (·.2.file) ~ scheduled links ++ marked
  nodes : expanded <+ RefTree.nodesAll depth ts
  /-- What was scheduled at the start is expanded at the start's depth. -/
  tops : ∀ f ∈ scheduled links, ∃ t, (depth, t) ∈ expanded ∧ t.file = f
  branches : (RefTree.nodesAll depth ts).filter (fun n => !n.2.isLeaf) <+ expanded
  searched : ∀ n ∈ expanded, q.Searched n.2
  worth : (∀ f ∈ scheduled links, q.Worth depth f) → ∀ n ∈ expanded, q.Worth n.1 n.2.file

theorem Account.leaf {f : Path} {v : Verdict} {rest : List (Path × Verdict)}
    {expanded : List (Nat × RefTree)} {marked : List Path} (hv : v ≠ .scheduled)
    (ha : q.Account depth rest p p' ts expanded marked) :
    q.Account depth ((f, v) :: rest) p p' (.leaf f :: ts) expanded marked := by
  obtain ⟨hvis, hlook, hfiles, hnodes, htops, hbranch, hsearch, hworth⟩ := ha
  refine ⟨hvis, hlook, ?_, hnodes.cons _, ?_, hbranch, hsearch, ?_⟩
  · rwa [scheduled_cons_leaf hv]
  · rwa [scheduled_cons_leaf hv]
  · rwa [scheduled_cons_leaf hv]

/-- The accounts of what is below a node and of what comes after it make one account. -/
theorem Account.node {f : Path} {rest links : List (Path × Verdict)} {found : List Path}
    {p p₂ p₃ p' : Progress} {ls ts : List RefTree} {expB expA : List (Nat × RefTree)}
    {markedB markedA : List Path} (opens : q.Opens (depth + 1) f found p links p₂)
    (hls : ls.map (·.file) = links.map (·.1))
    (hb : q.Account (depth + 1) links p₂ p₃ ls expB markedB)
    (ha : q.Account depth rest p₃ p' ts expA markedA) :
    q.Account depth ((f, .scheduled) :: rest) p p' (.node f ls :: ts)
      ((depth, .node f ls) :: (expB ++ expA))
      (markedA ++ markedB ++ (scheduled links).reverse) := by
  have hatt := opens.attached
  refine ⟨?_, ?_, ?_, ?_, ?_, ?_, ?_, ?_⟩
  · rw [ha.visited, hb.visited, hatt.visited]
    simp [Progress.lookedUp]
  · rw [ha.lookups, hb.lookups, hatt.lookups]
    simp [Progress.lookedUp, RefTree.file]
  · -- both sides are `f`, what is below it, and what comes after
    have hl : (scheduled links).reverse ~ scheduled links := List.reverse_perm _
    rw [List.map_cons, List.map_append, scheduled_cons_node, List.cons_append]
    refine List.Perm.cons f ?_
    calc
      expB.map (·.2.file) ++ expA.map (·.2.file)
          ~ (scheduled links ++ markedB) ++ (scheduled rest ++ markedA) := hb.files.append ha.files
      _ ~ (scheduled rest ++ markedA) ++ (scheduled links ++ markedB) := List.perm_append_comm
      _ ~ (scheduled rest ++ markedA) ++ (markedB ++ (scheduled links).reverse) :=
        (List.perm_append_comm.trans (hl.symm.append_left _)).append_left _
      _ = scheduled rest ++ (markedA ++ markedB ++ (scheduled links).reverse) := by simp
  · exact (hb.nodes.append ha.nodes).cons_cons _
  · intro g hg
    rcases List.mem_cons.mp hg with rfl | hg
    · exact ⟨_, List.mem_cons_self, rfl⟩
    · obtain ⟨t, ht, hfile⟩ := ha.tops g hg
      exact ⟨t, List.mem_cons_of_mem _ (List.mem_append_right _ ht), hfile⟩
  · -- the node itself is expanded whether or not it got links
    have hsub := hb.branches.append ha.branches
    rw [← List.filter_append] at hsub
    simp only [RefTree.nodesAll, RefTree.nodes, List.cons_append]
    rw [List.filter_cons]
    split
    · exact hsub.cons_cons _
    · exact hsub.cons _
  · intro n hn
    rcases List.mem_cons.mp hn with rfl | hn
    · refine ⟨found, opens.look, ?_, fun hnone => ?_⟩
      · show ls.map (·.file) <+: found
        rw [hls]
        exact hatt.front
      · show ls.map (·.file) = found
        rw [hls]
        exact hatt.all hnone
    · exact (List.mem_append.mp hn).elim (hb.searched n) (ha.searched n)
  · intro hw n hn
    rcases List.mem_cons.mp hn with rfl | hn
    · exact hw f List.mem_cons_self
    · rcases List.mem_append.mp hn with hn | hn
      · exact hb.worth hatt.worth n hn
      · exact ha.worth (fun g hg => hw g (List.mem_cons_of_mem _ hg)) n hn

theorem Grows.files_eq (hg : q.Grows depth links p ts p') : ts.map (·.file) = links.map (·.1) := by
  induction hg with
  | done => rfl
  | leaf _ _ ih => rw [List.map_cons, ih]; rfl
  | node _ _ _ _ iha => rw [List.map_cons, iha]; rfl

theorem Grows.length_eq (hg : q.Grows depth links p ts p') : ts.length = links.length := by
  simpa using congrArg List.length hg.files_eq

/-- **Every growth has an account.** -/
theorem Grows.account (hg : q.Grows depth links p ts p') :
    ∃ expanded marked, q.Account depth links p p' ts expanded marked := by
  induction hg with
  | done =>
    exact ⟨[], [], rfl, rfl, List.Perm.refl _, List.Sublist.refl _, by simp, List.Sublist.refl _,
      by simp, by simp⟩
  | leaf hv _ ih =>
    obtain ⟨expanded, marked, ha⟩ := ih
    exact ⟨expanded, marked, ha.leaf hv⟩
  | node opens below _ ihb iha =>
    obtain ⟨expB, markedB, hb⟩ := ihb
    obtain ⟨expA, markedA, ha⟩ := iha
    exact ⟨_, _, .node opens below.files_eq hb ha⟩

/-! ## 2. What a growth keeps -/

theorem Grows.visited_subset (hg : q.Grows depth links p ts p') : p.visited ⊆ p'.visited := by
  obtain ⟨_, _, ha⟩ := hg.account
  rw [ha.visited]
  exact List.subset_append_right _ _

theorem Grows.apart (hg : q.Grows depth links p ts p') (hp : Apart p.visited) :
    Apart p'.visited := by
  induction hg with
  | done => exact hp
  | leaf _ _ ih => exact ih hp
  | node opens _ _ ihb iha => exact iha (ihb (opens.attached.apart hp))

/-- The count of expanded nodes is the number of searches. -/
theorem Grows.expanded_eq (hg : q.Grows depth links p ts p')
    (hp : p.stats.expanded = p.lookups.length) : p'.stats.expanded = p'.lookups.length := by
  induction hg with
  | done => exact hp
  | leaf _ _ ih => exact ih hp
  | node opens _ _ ihb iha =>
    have hatt := opens.attached
    refine iha (ihb ?_)
    rw [hatt.expanded, hatt.lookups]
    simp [Progress.lookedUp, hp]

/-- Once all links are settled, so is every node that they grow into. -/
theorem Grows.settled (hg : q.Grows depth links p ts p')
    (hset : ∀ f ∈ links.map (·.1), q.Settled p.visited depth f) :
    ∀ n ∈ RefTree.nodesAll depth ts, q.Settled p'.visited n.1 n.2.file := by
  induction hg with
  | done => simp [RefTree.nodesAll]
  | @leaf depth f v rest p p' ts _ after ih =>
    intro n hn
    rcases List.mem_cons.mp hn with rfl | hn
    · exact (hset f (by simp)).mono after.visited_subset
    · exact ih (fun g hg => hset g (List.mem_cons_of_mem _ hg)) n hn
  | @node depth f rest links found p p₂ p₃ p' ls ts opens below after ihb iha =>
    have hatt := opens.attached
    have hbelow : p.visited ⊆ p₃.visited :=
      fun k hk => below.visited_subset (hatt.visited_subset hk)
    intro n hn
    rcases List.mem_cons.mp hn with rfl | hn
    · exact ((hset f (by simp)).mono hbelow).mono after.visited_subset
    · rcases List.mem_append.mp hn with hn | hn
      · exact (ihb hatt.settled n hn).mono after.visited_subset
      · exact iha (fun g hg => (hset g (List.mem_cons_of_mem _ hg)).mono hbelow) n hn

/-! ## 3. The files left to visit -/

/-- The number of files in a list whose keys are not yet visited. -/
def unvisited (q : Inquiry) (files visited : List Path) : Nat :=
  files.countP fun g => !(q.key g).memSame visited

theorem unvisited_le_length (q : Inquiry) (files visited : List Path) :
    q.unvisited files visited ≤ files.length := List.countP_le_length

theorem unvisited_anti (q : Inquiry) (files : List Path) {vs ws : List Path} (hs : vs ⊆ ws) :
    q.unvisited files ws ≤ q.unvisited files vs := by
  refine List.countP_mono_left fun g _ hg => ?_
  cases hv : (q.key g).memSame vs with
  | false => rfl
  | true => simp [memSame_mono hs hv] at hg

theorem unvisited_cons_lt {files vs : List Path} {g : Path} (hg : g ∈ files)
    (hnew : (q.key g).memSame vs = false) :
    q.unvisited files (q.key g :: vs) < q.unvisited files vs := by
  induction files with
  | nil => exact absurd hg (by simp)
  | cons f rest ih =>
    have htail := unvisited_anti q rest (List.subset_cons_self (q.key g) vs)
    unfold unvisited at ih htail ⊢
    rw [List.countP_cons, List.countP_cons]
    rcases List.mem_cons.mp hg with rfl | hg
    · have hself : (q.key g).memSame (q.key g :: vs) = true := memSame_of_mem (by simp)
      simp only [hself, hnew, Bool.not_true, Bool.not_false, if_true]
      simp only [Bool.false_eq_true, if_false]
      omega
    · have hlt := ih hg
      have hone : (if (!(q.key f).memSame (q.key g :: vs)) = true then 1 else 0) ≤
          (if (!(q.key f).memSame vs) = true then 1 else 0) := by
        cases hv : (q.key f).memSame vs with
        | false => split <;> simp
        | true => simp [memSame_mono (List.subset_cons_self (q.key g) vs) hv]
      omega

/-- Visiting several files at once, none of which was visited, leaves fewer by their number. -/
theorem unvisited_append_le {files vs : List Path} {gs : List Path} (hsub : gs ⊆ files)
    (hap : Apart (gs.map q.key ++ vs)) :
    q.unvisited files (gs.map q.key ++ vs) + gs.length ≤ q.unvisited files vs := by
  induction gs with
  | nil => simp
  | cons g gs ih =>
    obtain ⟨hhead, htail⟩ := List.pairwise_cons.mp hap
    have hnew : (q.key g).memSame (gs.map q.key ++ vs) = false :=
      memSame_eq_false_iff.mpr fun k hk hsame => hhead k hk hsame.symm
    have hlt := unvisited_cons_lt (hsub List.mem_cons_self) hnew
    have hih := ih (fun k hk => hsub (List.mem_cons_of_mem _ hk)) htail
    simp only [List.map_cons, List.cons_append, List.length_cons]
    omega

theorem Attached.unvisited_le {found files : List Path} (ha : q.Attached depth found p links p')
    (hsub : found ⊆ files) (hp : Apart p.visited) :
    q.unvisited files p'.visited + (scheduled links).length ≤ q.unvisited files p.visited := by
  have hap := ha.apart hp
  rw [ha.visited, ← List.map_reverse] at hap ⊢
  have hmem : (scheduled links).reverse ⊆ files :=
    fun f hf => hsub (ha.mem_found (List.mem_reverse.mp hf))
  have hle := unvisited_append_le hmem hap
  rwa [List.length_reverse] at hle

/-! ## 4. Every expansion ends -/

section Ends

variable {files : List Path} (hfiles : ∀ f found, q.referrers f = .ok found → found ⊆ files)

include hfiles

/-- Each search is paid for by a scheduled link or by a file that is visited on the way. -/
theorem Grows.lookups_le (hg : q.Grows depth links p ts p') (hp : Apart p.visited) :
    p'.lookups.length + q.unvisited files p'.visited ≤
      p.lookups.length + q.unvisited files p.visited + (scheduled links).length := by
  induction hg with
  | done => simp
  | leaf hv _ ih =>
    rw [scheduled_cons_leaf hv]
    exact ih hp
  | node opens below _ ihb iha =>
    -- one link was taken away, and each link that was scheduled for it is a file less to visit
    have ha := opens.attached
    have hap := ha.apart hp
    have hatt := ha.unvisited_le (hfiles _ _ opens.look) hp
    have hb := ihb hap
    have haft := iha (below.apart hap)
    have hl := congrArg List.length ha.lookups
    simp only [Progress.lookedUp, List.length_cons, scheduled_cons_node] at hatt hb haft hl ⊢
    omega

theorem Halts.lookups_lt (hh : q.Halts depth links p h) (hp : Apart p.visited) :
    h.lookups.length <
      p.lookups.length + q.unvisited files p.visited + (scheduled links).length := by
  induction hh with
  | here look =>
    simp only [scheduled_cons_node, List.length_cons]
    omega
  | inside opens _ ih =>
    have ha := opens.attached
    have hatt := ha.unvisited_le (hfiles _ _ opens.look) hp
    have hb := ih (ha.apart hp)
    have hl := congrArg List.length ha.lookups
    simp only [Progress.lookedUp, List.length_cons, scheduled_cons_node] at hatt hb hl ⊢
    omega
  | afterLeaf hv _ ih =>
    rw [scheduled_cons_leaf hv]
    exact ih hp
  | afterNode opens below _ ih =>
    have ha := opens.attached
    have hap := ha.apart hp
    have hatt := ha.unvisited_le (hfiles _ _ opens.look) hp
    have hb := below.lookups_le hfiles hap
    have haft := ih (below.apart hap)
    have hl := congrArg List.length ha.lookups
    simp only [Progress.lookedUp, List.length_cons, scheduled_cons_node] at hatt hb haft hl ⊢
    omega

/-- **An expansion grows or halts.** The outer induction is on the files left to visit and the links
that wait, together; the inner one goes along the links. -/
theorem grows_or_halts (n depth : Nat) (links : List (Path × Verdict)) (p : Progress)
    (hp : Apart p.visited)
    (hn : q.unvisited files p.visited + (scheduled links).length ≤ n) :
    (∃ ts p', q.Grows depth links p ts p') ∨ ∃ h, q.Halts depth links p h := by
  induction n using Nat.strongRecOn generalizing depth links p with
  | _ n ihn =>
    induction links generalizing p with
    | nil => exact Or.inl ⟨[], p, .done⟩
    | cons link rest ihl =>
      obtain ⟨f, v⟩ := link
      by_cases hv : v = .scheduled
      · subst hv
        cases hlook : q.referrers f with
        | error e => exact Or.inr ⟨_, .here hlook⟩
        | ok found =>
          obtain ⟨links, p₂, hopens⟩ := exists_opens (depth + 1) p hlook
          have ha := hopens.attached
          have hap₂ := ha.apart hp
          have hle : q.unvisited files p₂.visited + (scheduled links).length ≤
              q.unvisited files p.visited := ha.unvisited_le (hfiles _ _ hlook) hp
          rw [scheduled_cons_node, List.length_cons] at hn
          -- below: fewer files to visit and links that wait, together, since `f` waits no more
          have hbelow := ihn (q.unvisited files p₂.visited + (scheduled links).length) (by omega)
            (depth + 1) links p₂ hap₂ (Nat.le_refl _)
          rcases hbelow with ⟨ls, p₃, hb⟩ | ⟨h, hb⟩
          · have hmono := unvisited_anti q files hb.visited_subset
            -- behind: one link fewer, and no more files to visit than before
            have hrest := ihl p₃ (hb.apart hap₂) (by omega)
            rcases hrest with ⟨ts, p', hr⟩ | ⟨h, hr⟩
            · exact Or.inl ⟨_, p', .node hopens hb hr⟩
            · exact Or.inr ⟨h, .afterNode hopens hb hr⟩
          · exact Or.inr ⟨h, .inside hopens hb⟩
      · rw [scheduled_cons_leaf hv] at hn
        rcases ihl p hp hn with ⟨ts, p', hr⟩ | ⟨h, hr⟩
        · exact Or.inl ⟨_, p', .leaf hv hr⟩
        · exact Or.inr ⟨h, .afterLeaf hv hr⟩

end Ends

end Citator.Inquiry

import Citator.Proofs.Expansion.Counts

/-!
# `Citator.Proofs.Expansion.Cut` — what a bound on nodes takes away

A bound on nodes is looked at in one place, before a link is attached. So two expansions that differ
only in that bound do the same, step for step, up to the link that the smaller bound refuses. From
there on the smaller one attaches nothing: its tree is full, and a tree stays full. It goes on
searching for what was scheduled and finds no room for the answers.

So its tree is the other one with every node's links broken off somewhere (`RefTree.Trimmed`). Which
of the two it was, all the same or full at some point, can be told from the counts: a tree that was
cut has as many nodes as the bound allows, and fewer than the other.
-/

namespace Citator

/-! ## 1. Trees with links broken off -/

namespace RefTree

mutual

/-- `t.Trimmed u`: every node of `t` is one of `u`, with its first links and not always all of them. -/
inductive Trimmed : RefTree → RefTree → Prop where
  | node {f : Path} {ts us : List RefTree} (h : TrimmedAll ts us) : Trimmed (.node f ts) (.node f us)

inductive TrimmedAll : List RefTree → List RefTree → Prop where
  | cut {us : List RefTree} : TrimmedAll [] us
  | link {t u : RefTree} {ts us : List RefTree} (h : Trimmed t u) (hs : TrimmedAll ts us) :
    TrimmedAll (t :: ts) (u :: us)

end

mutual

theorem Trimmed.refl : ∀ t : RefTree, t.Trimmed t
  | .node _ ls => .node (TrimmedAll.refl ls)

theorem TrimmedAll.refl : ∀ ts : List RefTree, TrimmedAll ts ts
  | [] => .cut
  | t :: ts => .link (Trimmed.refl t) (TrimmedAll.refl ts)

end

end RefTree

namespace Inquiry

open RefTree (Trimmed TrimmedAll)

/-- The same questions with another bound on nodes. -/
def withMaxNodes (q : Inquiry) (m : Nat) : Inquiry :=
  { q with limits := { q.limits with maxNodes := some m } }

/-- What tells an expansion that was cut from one that was not: it is full and says so, and it has
fewer nodes. -/
structure Cut (m : Nat) (s s' : Stats) : Prop where
  full : m ≤ s.nodes
  truncated : s.truncated = true
  fewer : s.nodes < s'.nodes

theorem Cut.mono {m : Nat} {s s' s'' : Stats} (h : Cut m s s') (hle : s'.nodes ≤ s''.nodes) :
    Cut m s s'' :=
  ⟨h.full, h.truncated, Nat.lt_of_lt_of_le h.fewer hle⟩

variable {q : Inquiry} {m depth : Nat} {f : Path} {found : List Path}
  {links front : List (Path × Verdict)} {p p' pc : Progress} {ts : List RefTree}

/-! ## 2. A round with the smaller bound -/

theorem isFull_withMaxNodes {s : Stats} : (q.withMaxNodes m).isFull s = true ↔ m ≤ s.nodes := by
  simp [isFull, withMaxNodes]

/-- A round attaches the same links with the smaller bound, or only the first of them. -/
theorem attach_withMaxNodes (hle : ∀ k, q.limits.maxNodes = some k → m ≤ k) (depth : Nat)
    (found : List Path) (p : Progress) :
    (q.withMaxNodes m).attach depth found p = q.attach depth found p ∨
      ((q.withMaxNodes m).attach depth found p).1 <+: (q.attach depth found p).1 ∧
        ((q.withMaxNodes m).attach depth found p).1.length < (q.attach depth found p).1.length := by
  induction found generalizing p with
  | nil => exact Or.inl rfl
  | cons f fs ih =>
    by_cases hroom : q.isFull p.stats = true
    · -- the larger bound leaves no room, so neither does the smaller one
      have hfull : (q.withMaxNodes m).isFull p.stats = true := by
        obtain ⟨k, hk, hlek⟩ := isFull_eq_true_iff.mp hroom
        exact isFull_withMaxNodes.mpr (Nat.le_trans (hle k hk) hlek)
      rw [attach_full hroom, attach_full hfull]
      exact Or.inl rfl
    · rw [attach_cons (q := q) (by simpa using hroom)]
      by_cases hfull : (q.withMaxNodes m).isFull p.stats = true
      · rw [attach_full hfull]
        exact Or.inr ⟨List.nil_prefix, Nat.succ_pos _⟩
      · -- both attach the link, with the same verdict
        rw [attach_cons (by simpa using hfull)]
        rcases ih (p.attached q f (q.verdict p.visited f depth) depth) with heq | ⟨hfront, hlt⟩
        · left
          rw [← heq]
          rfl
        · right
          exact ⟨(List.prefix_cons_inj _).mpr hfront, Nat.succ_lt_succ hlt⟩

/-- If they are not all the same, the round was cut. -/
theorem Tallied.cut {s s' sc : Stats} (hc : (q.withMaxNodes m).Tallied depth found front s sc)
    (hq : q.Tallied depth found links s s') (hle : links.length ≤ found.length)
    (hlt : front.length < links.length) : Cut m sc s' := by
  have hshort : front.length < found.length := Nat.lt_of_lt_of_le hlt hle
  refine ⟨isFull_withMaxNodes.mp (hc.full hshort), ?_, ?_⟩
  · rw [hc.truncated]
    simp [hshort]
  · rw [hc.nodes, hq.nodes]
    omega

/-- Where a node is expanded with both bounds, it is expanded the same, or cut short. -/
theorem Opens.eq_or_cut (opens : q.Opens depth f found p links p')
    (hle : ∀ k, q.limits.maxNodes = some k → m ≤ k)
    (opensc : (q.withMaxNodes m).Opens depth f found p front pc) :
    (front = links ∧ pc = p') ∨ front <+: links ∧ Cut m pc.stats p'.stats := by
  have hround := attach_withMaxNodes hle depth found (p.lookedUp f found)
  have hlen := opens.attached.front.length_le
  rw [List.length_map] at hlen
  rw [(opens_iff.mp opens).2, (opens_iff.mp opensc).2] at hround
  rcases hround with heq | ⟨hfront, hlt⟩
  · exact Or.inl (Prod.mk.inj heq)
  · exact Or.inr ⟨hfront, opensc.round.tallied.cut opens.round.tallied hlen hlt⟩

/-! ## 3. What is left to do in a full tree -/

/-- A node of a full tree that was cut is searched for, and takes no link. Only the search is counted. -/
theorem opens_of_full (depth : Nat) (look : q.referrers f = .ok found) (hfull : m ≤ p.stats.nodes)
    (htrunc : p.stats.truncated = true) :
    ∃ p', (q.withMaxNodes m).Opens depth f found p [] p' ∧
      p'.stats = (p.lookedUp f found).stats := by
  cases found with
  | nil => exact ⟨_, ⟨look, .done⟩, rfl⟩
  | cons g gs =>
    refine ⟨_, ⟨look, .full rfl hfull⟩, ?_⟩
    simp [Progress.lookedUp, ← htrunc]

/-- **In a full tree everything that waits becomes a leaf.** Wherever an expansion with more room goes
from its links, one that was cut goes from the first of them to the same trees without their links,
and attaches nothing. -/
theorem Grows.cut (hg : q.Grows depth links p ts p') (hfront : front <+: links)
    (hcut : Cut m pc.stats p.stats) :
    ∃ tc pc', (q.withMaxNodes m).Grows depth front pc tc pc' ∧ TrimmedAll tc ts ∧
      Cut m pc'.stats p'.stats := by
  induction hg generalizing front pc with
  | done =>
    rw [List.prefix_nil.mp hfront]
    exact ⟨[], pc, .done, .cut, hcut⟩
  | leaf hv after ih =>
    rcases List.prefix_cons_iff.mp hfront with rfl | ⟨front, rfl, hrest⟩
    · exact ⟨[], pc, .done, .cut, hcut.mono after.nodes_le⟩
    · obtain ⟨tc, pc', hgc, htrim, hcut'⟩ := ih hrest hcut
      exact ⟨_, pc', .leaf hv hgc, .link (.refl _) htrim, hcut'⟩
  | @node depth f rest links found p p₂ p₃ p' ls ts opens below after _ iha =>
    have hle : p.stats.nodes ≤ p₃.stats.nodes := by
      have hround := opens.round.tallied.nodes
      have hbelow := below.nodes_le
      simp only [Progress.lookedUp] at hround
      omega
    rcases List.prefix_cons_iff.mp hfront with rfl | ⟨front, rfl, hrest⟩
    · exact ⟨[], pc, .done, .cut, hcut.mono (Nat.le_trans hle after.nodes_le)⟩
    · -- the search is made all the same; its answer finds no room
      obtain ⟨pc₂, hopens, hstats⟩ := opens_of_full (depth + 1) opens.look hcut.full hcut.truncated
      have hcut₃ : Cut m pc₂.stats p₃.stats := by
        rw [hstats]
        exact ⟨hcut.full, hcut.truncated, Nat.lt_of_lt_of_le hcut.fewer hle⟩
      obtain ⟨tc, pc', hgc, htrim, hcut'⟩ := iha hrest hcut₃
      exact ⟨_, pc', .node hopens .done hgc, .link (.node .cut) htrim, hcut'⟩

/-! ## 4. A growth with the smaller bound -/

/-- **With a smaller bound an expansion does the same, or is cut.** The induction follows the larger
expansion; the first round that is cut makes everything after it part of a full tree. -/
theorem Grows.withMaxNodes (hle : ∀ k, q.limits.maxNodes = some k → m ≤ k)
    (hg : q.Grows depth links p ts p') :
    (q.withMaxNodes m).Grows depth links p ts p' ∨
      ∃ tc pc, (q.withMaxNodes m).Grows depth links p tc pc ∧ TrimmedAll tc ts ∧
        Cut m pc.stats p'.stats := by
  induction hg with
  | done => exact Or.inl .done
  | leaf hv _ ih =>
    rcases ih with hsame | ⟨tc, pc, hgc, htrim, hcut⟩
    · exact Or.inl (.leaf hv hsame)
    · exact Or.inr ⟨_, pc, .leaf hv hgc, .link (.refl _) htrim, hcut⟩
  | @node depth f rest links found p p₂ p₃ p' ls ts opens below after ihb iha =>
    obtain ⟨front, pf, hopensc⟩ := exists_opens (q := q.withMaxNodes m) (depth + 1) p opens.look
    -- what was cut below the node stays cut in what comes after
    have hafter : ∀ {lc p₄}, (q.withMaxNodes m).Grows (depth + 1) front pf lc p₄ →
        TrimmedAll lc ls → Cut m p₄.stats p₃.stats →
        ∃ tc pc, (q.withMaxNodes m).Grows depth ((f, .scheduled) :: rest) p tc pc ∧
          TrimmedAll tc (.node f ls :: ts) ∧ Cut m pc.stats p'.stats := by
      intro lc p₄ hgb htrim hcut
      obtain ⟨tc, pc, hgc, htrimc, hcut'⟩ := after.cut (List.prefix_refl rest) hcut
      exact ⟨_, pc, .node hopensc hgb hgc, .link (.node htrim) htrimc, hcut'⟩
    rcases opens.eq_or_cut hle hopensc with ⟨rfl, rfl⟩ | ⟨hfront, hcut⟩
    · rcases ihb with hsame | ⟨lc, p₄, hgb, htrim, hcut⟩
      · rcases iha with hsame' | ⟨tc, pc, hgc, htrim, hcut⟩
        · exact Or.inl (.node hopensc hsame hsame')
        · exact Or.inr ⟨_, pc, .node hopensc hsame hgc, .link (.refl _) htrim, hcut⟩
      · exact Or.inr (hafter hgb htrim hcut)
    · obtain ⟨lc, p₄, hgb, htrim, hcut'⟩ := below.cut hfront hcut
      exact Or.inr (hafter hgb htrim hcut')

/-- The room in a tree is never exceeded. -/
theorem Grows.nodes_le_max (hm : q.limits.maxNodes = some m) (hg : q.Grows depth links p ts p') :
    p'.stats.nodes ≤ max p.stats.nodes m := by
  refine hg.invariant (P := fun x => x.stats.nodes ≤ max p.stats.nodes m) (fun hr hx => ?_)
    (Nat.le_max_left _ _)
  have hroom := hr.tallied.room m hm
  simp only [Progress.lookedUp] at hroom
  omega

/-- Without a bound on nodes nothing is cut. -/
theorem Grows.truncated_eq (hnone : q.limits.maxNodes = none) (hg : q.Grows depth links p ts p') :
    p'.stats.truncated = p.stats.truncated := by
  refine hg.invariant (P := fun x => x.stats.truncated = p.stats.truncated) (fun hr hx => ?_) rfl
  rw [hr.tallied.truncated, ← List.length_map (f := (·.1)), hr.attached.all hnone]
  simp only [Progress.lookedUp, Nat.lt_irrefl, decide_false, Bool.or_false]
  exact hx

end Inquiry

/-! ## 5. Builds with a bound on nodes -/

namespace Finder

variable {f : Finder} {name : String} {e : Expansion} {m : Nat}

/-- The same finder with another bound on nodes. -/
def withMaxNodes (f : Finder) (m : Nat) : Finder :=
  { f with limits := { f.limits with maxNodes := some m } }

theorem truncated_of_build (hnone : f.limits.maxNodes = none) (hb : f.build name = .ok e) :
    e.stats.truncated = false := by
  rcases (grows_of_build hb).2 with ⟨-, -, hstats, -⟩ | ⟨-, ls, p, hg, -, hstats, -⟩
  · rw [hstats]
    rfl
  · rw [hstats, hg.truncated_eq hnone]
    rfl

theorem nodes_le_of_build (hm : f.limits.maxNodes = some m) (hb : f.build name = .ok e) :
    e.stats.nodes ≤ max 1 m := by
  rcases (grows_of_build hb).2 with ⟨-, -, hstats, -⟩ | ⟨-, ls, p, hg, -, hstats, -⟩
  · rw [hstats]
    exact Nat.le_max_left _ _
  · rw [hstats]
    exact hg.nodes_le_max hm

/-- **With a smaller bound a build is the same, or is cut.** -/
theorem build_withMaxNodes_of_le (hle : ∀ k, f.limits.maxNodes = some k → m ≤ k)
    (hb : f.build name = .ok e) :
    (f.withMaxNodes m).build name = .ok e ∨
      ∃ ec, (f.withMaxNodes m).build name = .ok ec ∧ ec.root.Trimmed e.root ∧
        Inquiry.Cut m ec.stats e.stats := by
  obtain ⟨hpath, ⟨hmax, hroot, hstats, hlook⟩ | ⟨hmax, ls, p, hg, hroot, hstats, hlook⟩⟩ :=
    grows_of_build hb
  all_goals
    obtain ⟨root, rootPath, stats, lookups⟩ := e
    simp only at hpath hroot hstats hlook
    subst hpath hroot hstats hlook
  · exact Or.inl (build_of_maxDepth_zero (f := f.withMaxNodes m) hmax)
  · rcases hg.withMaxNodes hle with hsame | ⟨tc, pc, hgc, htrim, hcut⟩
    · exact Or.inl (build_of_grows (f := f.withMaxNodes m) hmax hsame)
    · cases htrim with
      | cut => exact absurd hgc.length_eq (by simp)
      | link h hs =>
        cases hs
        cases h with
        | node htrim =>
          exact Or.inr ⟨_, build_of_grows (f := f.withMaxNodes m) hmax hgc, .node htrim, hcut⟩

/-- **A bound on nodes takes nodes away and changes nothing else.** The build succeeds if it does
without the bound, with as many nodes as the bound allows; it says that it was cut just if there would
have been more. Its tree has the first links of every node that it has. -/
theorem build_withMaxNodes (hnone : f.limits.maxNodes = none) (hb : f.build name = .ok e) (m : Nat) :
    ∃ ec, (f.withMaxNodes m).build name = .ok ec ∧
      ec.root.nodeCount = min e.root.nodeCount (max 1 m) ∧
      (ec.stats.truncated = true ↔ max 1 m < e.root.nodeCount) ∧
      ec.root.Trimmed e.root ∧
      (ec.stats.truncated = false → ec = e) ∧
      ∀ k el, m ≤ k → (f.withMaxNodes k).build name = .ok el → ec.root.Trimmed el.root := by
  have hlarger : ∀ {ec}, (f.withMaxNodes m).build name = .ok ec → ∀ k el, m ≤ k →
      (f.withMaxNodes k).build name = .ok el → ec.root.Trimmed el.root := by
    intro ec hec k el hmk hel
    have hle : ∀ k', (f.withMaxNodes k).limits.maxNodes = some k' → m ≤ k' :=
      fun k' hk' => (Option.some.inj hk') ▸ hmk
    rcases build_withMaxNodes_of_le hle hel with hsame | ⟨ec', hec', htrim, -⟩
    · obtain rfl : ec = el := Except.ok.inj (hec.symm.trans hsame)
      exact .refl _
    · obtain rfl : ec = ec' := Except.ok.inj (hec.symm.trans hec')
      exact htrim
  have htrunc := truncated_of_build hnone hb
  have hnodes := nodes_of_build hb
  rcases build_withMaxNodes_of_le (m := m) (fun k hk => absurd (hnone.symm.trans hk) (by simp)) hb with
    hsame | ⟨ec, hec, htrim, hcut⟩
  · -- the bound was never met
    have hle := nodes_le_of_build (f := f.withMaxNodes m) rfl hsame
    rw [hnodes] at hle
    refine ⟨e, hsame, (Nat.min_eq_left hle).symm, ?_, .refl _, fun _ => rfl, hlarger hsame⟩
    simp only [htrunc, Bool.false_eq_true, false_iff]
    omega
  · have hle := nodes_le_of_build (f := f.withMaxNodes m) rfl hec
    have hpos := ec.root.nodeCount_pos
    have hfull := hcut.full
    have hfewer := hcut.fewer
    rw [nodes_of_build hec] at hle hfull hfewer
    rw [hnodes] at hfewer
    refine ⟨ec, hec, by omega, iff_of_true hcut.truncated (by omega), htrim, fun hfalse => ?_,
      hlarger hec⟩
    exact absurd (hcut.truncated.symm.trans hfalse) (by simp)

/-- Two files that refer to `a.ts`, and one that refers to the first of them. -/
def twoAndOne : Finder :=
  ofTexts "/p" [("a.ts", ""), ("b.ts", "import './a'"), ("c.ts", "import './a'"),
    ("d.ts", "import './b'")]

/-- There is room for one of the two links of the root. -/
theorem build_withMaxNodes_twoAndOne : ∃ e ec, twoAndOne.build "a" = .ok e ∧
    (twoAndOne.withMaxNodes 2).build "a" = .ok ec ∧ e.root.nodeCount = 4 ∧
      ec.root.nodeCount = 2 ∧ ec.stats.truncated = true ∧ ec.root.Trimmed e.root := by
  obtain ⟨e, hb, hfour⟩ : ∃ e, twoAndOne.build "a" = .ok e ∧ e.root.nodeCount = 4 :=
    exists_build_of_map (m := (·.root.nodeCount)) (by decide +kernel)
  obtain ⟨ec, hec, hcount, htrunc, htrim, -, -⟩ := build_withMaxNodes rfl hb 2
  rw [hfour] at hcount htrunc
  exact ⟨e, ec, hb, hec, hfour, hcount, htrunc.mpr (by decide), htrim⟩

end Finder
end Citator

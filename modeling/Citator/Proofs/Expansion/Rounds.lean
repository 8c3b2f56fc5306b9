import Citator.Proofs.Expansion.Growth

/-!
# `Citator.Proofs.Expansion.Rounds` — what a round does to the counts

An expansion works in rounds: one search, and the attaching of what was found. All counts change
there and nowhere else. `Tallied` says how attaching changes them, once for every caller, as `Attached`
says what it does to the visited keys; `Round` is both, together with the search.

What every round keeps is kept by a growth (`Grows.invariant`), so a fact about the counts that does
not look at the tree needs no induction of its own.
-/

namespace Citator

/-- The nodes of which it is settled what becomes of them: those that were expanded, and those that
are left as they are. -/
def Stats.accounted (s : Stats) : Nat :=
  s.expanded + s.skippedVisited + s.skippedGate + s.skippedDepth

namespace Inquiry

open Citator.Path

variable {q : Inquiry} {depth : Nat} {f : Path} {found : List Path}
  {links : List (Path × Verdict)} {p p' : Progress} {ts : List RefTree}

/-! ## 1. The counts of a round of attaching -/

/-- What attaching does to the counts: the found files become the links, and the counts `s` become
`s'`. -/
structure Tallied (q : Inquiry) (depth : Nat) (found : List Path) (links : List (Path × Verdict))
    (s s' : Stats) : Prop where
  scanned : s'.filesScanned = s.filesScanned
  unreadable : s'.unreadableSkipped = s.unreadableSkipped
  nodes : s'.nodes = s.nodes + links.length
  reached : s'.maxDepthReached = (List.replicate links.length depth).foldl max s.maxDepthReached
  /-- A link that is not scheduled is settled at once. -/
  accounted : s'.accounted + (scheduled links).length = s.accounted + links.length
  gated : s'.skippedGate = s.skippedGate + links.countP fun l => decide (l.2 = .gated)
  deep : q.limits.maxDepth = none → s'.skippedDepth = s.skippedDepth
  /-- The tree was cut short if some of the found files did not become links, -/
  truncated : s'.truncated = (s.truncated || decide (links.length < found.length))
  /-- which is so only where it is full. -/
  full : links.length < found.length → q.isFull s' = true
  room : ∀ m, q.limits.maxNodes = some m → s'.nodes ≤ max s.nodes m

theorem verdict_ne_tooDeep (h : q.limits.maxDepth = none) (visited : List Path) (f : Path)
    (depth : Nat) : q.verdict visited f depth ≠ .tooDeep := by
  intro hv
  obtain ⟨-, -, hdeep⟩ := verdict_eq_tooDeep_iff.mp hv
  rw [isDeep_of_maxDepth_none h] at hdeep
  cases hdeep

/-- A link that was attached: the counts, by its verdict. -/
theorem accounted_attached (s : Stats) (v : Verdict) (depth : Nat) :
    (s.attached v depth).accounted + (if v = .scheduled then 1 else 0) = s.accounted + 1 := by
  cases v <;> simp [Stats.attached, Stats.accounted] <;> omega

/-- One link more in front. -/
theorem Tallied.cons {s s' : Stats} {v : Verdict} (h : q.Tallied depth found links (s.attached v depth) s')
    (hdeep : q.limits.maxDepth = none → v ≠ .tooDeep) (hroom : q.isFull s = false) (f : Path) :
    q.Tallied depth (f :: found) ((f, v) :: links) s s' := by
  have hone := accounted_attached s v depth
  constructor
  case scanned => exact h.scanned
  case unreadable => exact h.unreadable
  case nodes =>
    rw [h.nodes, List.length_cons]
    simp only [Stats.attached]
    omega
  case reached =>
    rw [h.reached, List.length_cons, List.replicate_succ, List.foldl_cons]
    rfl
  case accounted =>
    have hacc := h.accounted
    by_cases hs : v = .scheduled
    · subst hs
      simp only [scheduled_cons_node, List.length_cons, if_true] at hone ⊢
      omega
    · rw [scheduled_cons_leaf hs, List.length_cons]
      simp only [hs, if_false] at hone
      omega
  case gated =>
    rw [h.gated, List.countP_cons]
    simp only [Stats.attached, decide_eq_true_eq]
    omega
  case deep =>
    intro hnone
    rw [h.deep hnone]
    simp [Stats.attached, hdeep hnone]
  case truncated =>
    rw [h.truncated]
    simp [Stats.attached]
  case full => exact fun hlt => h.full (by simpa using hlt)
  case room =>
    intro m hm
    have hle := h.room m hm
    have hlt := isFull_eq_false_iff.mp hroom m hm
    simp only [Stats.attached] at hle
    omega

theorem tallied_attach (q : Inquiry) (depth : Nat) (found : List Path) (p : Progress) :
    q.Tallied depth found (q.attach depth found p).1 p.stats (q.attach depth found p).2.stats := by
  induction found generalizing p with
  | nil =>
    exact ⟨rfl, rfl, rfl, rfl, rfl, rfl, fun _ => rfl, by simp [attach], fun h => absurd h (by simp),
      fun m _ => Nat.le_max_left _ _⟩
  | cons f fs ih =>
    by_cases hfull : q.isFull p.stats = true
    · -- nothing is attached, and the file in front is one that did not become a link
      rw [attach_full hfull]
      exact ⟨rfl, rfl, rfl, rfl, rfl, rfl, fun _ => rfl, by simp [Progress.cut], fun _ => hfull,
        fun m _ => Nat.le_max_left _ _⟩
    · have hroom : q.isFull p.stats = false := by simpa using hfull
      rw [attach_cons hroom]
      exact (ih _).cons (fun hnone => verdict_ne_tooDeep hnone _ _ _) hroom f

/-- Every verdict of a round was given when the keys from before the round were visited, and none that
were not visited after it. -/
theorem verdict_of_mem_attach (q : Inquiry) (depth : Nat) (found : List Path) (p : Progress) :
    ∀ l ∈ (q.attach depth found p).1, ∃ visited, p.visited ⊆ visited ∧
      visited ⊆ (q.attach depth found p).2.visited ∧ l.2 = q.verdict visited l.1 depth := by
  induction found generalizing p with
  | nil => exact fun l hl => absurd hl (by simp [attach])
  | cons f fs ih =>
    intro l hl
    by_cases hfull : q.isFull p.stats = true
    · rw [attach_full hfull] at hl
      exact absurd hl (by simp)
    · rw [attach_cons (by simpa using hfull)] at hl ⊢
      have hgrow : p.visited ⊆ (p.attached q f (q.verdict p.visited f depth) depth).visited := by
        unfold Progress.attached
        split
        · exact List.subset_cons_self _ _
        · exact List.Subset.refl _
      rcases List.mem_cons.mp hl with rfl | hl
      · have hafter := (attached_attach q depth fs
          (p.attached q f (q.verdict p.visited f depth) depth)).visited_subset
        exact ⟨p.visited, List.Subset.refl _, fun k hk => hafter (hgrow hk), rfl⟩
      · obtain ⟨visited, hbefore, hafter, hv⟩ := ih _ l hl
        exact ⟨visited, fun k hk => hbefore (hgrow hk), hafter, hv⟩

/-! ## 2. Rounds -/

/-- One round: the search for a file, and the attaching of what was found. -/
structure Round (q : Inquiry) (depth : Nat) (f : Path) (found : List Path) (p : Progress)
    (links : List (Path × Verdict)) (p' : Progress) : Prop where
  look : q.referrers f = .ok found
  attached : q.Attached depth found (p.lookedUp f found) links p'
  tallied : q.Tallied depth found links (p.lookedUp f found).stats p'.stats
  verdicts : ∀ l ∈ links, ∃ visited, p.visited ⊆ visited ∧ visited ⊆ p'.visited ∧
    l.2 = q.verdict visited l.1 depth

theorem Opens.round (opens : q.Opens depth f found p links p') : q.Round depth f found p links p' := by
  obtain ⟨-, att⟩ := opens_iff.mp opens
  have htally := tallied_attach q depth found (p.lookedUp f found)
  have hverdicts := verdict_of_mem_attach q depth found (p.lookedUp f found)
  rw [att] at htally hverdicts
  exact ⟨opens.look, opens.attached, htally, hverdicts⟩

/-- **What every round keeps, a growth keeps.** -/
theorem Grows.invariant {P : Progress → Prop}
    (hround : ∀ {depth f found p links p'}, q.Round depth f found p links p' → P p → P p')
    (hg : q.Grows depth links p ts p') (hp : P p) : P p' := by
  induction hg with
  | done => exact hp
  | leaf _ _ ih => exact ih hp
  | node opens _ _ ihb iha => exact iha (ihb (hround opens.round hp))

theorem Grows.nodes_le (hg : q.Grows depth links p ts p') : p.stats.nodes ≤ p'.stats.nodes := by
  refine hg.invariant (P := fun x => p.stats.nodes ≤ x.stats.nodes) (fun hr hle => ?_) (Nat.le_refl _)
  rw [hr.tallied.nodes]
  exact Nat.le_trans hle (Nat.le_add_right _ _)

end Inquiry
end Citator

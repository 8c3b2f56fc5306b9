import Citator.Expansion.Recursive
import Citator.Proofs.Path.Sameness

/-!
# `Citator.Proofs.Expansion.Attach` — what attaching the referrers of a file does

One search is followed by one round of attaching, and everything that an expansion decides it decides
there: which referrers still fit into the tree, which of them are scheduled, which keys count as
visited from here on. The rules (`Attaches`) give it link by link. `attach` computes it with the
verdict that the worklist gives, and the two agree (`attaches_iff`). `Attached` says what comes of it
for the round as a whole, once for every caller; nobody else looks into the recursion.

A link that is not scheduled is *settled*: its file is visited already, or it is not *worth*
expanding where it stands. A link that is scheduled is settled too, since scheduling visits it. So
every link of a round is settled once the round is over, and it stays settled, since the visited
keys only grow more.
-/

namespace Citator.Inquiry

open Citator.Path

/-! ## 1. The verdict, as a condition -/

/-- Whether a node at the given depth lies too deep to be expanded. -/
def isDeep (q : Inquiry) (depth : Nat) : Bool :=
  q.limits.maxDepth.any fun max => decide (max ≤ depth)

/-- A file that a node at the given depth may be expanded for, if it was not visited before. -/
def Worth (q : Inquiry) (depth : Nat) (f : Path) : Prop :=
  q.admits f = true ∧ q.isDeep depth = false

/-- A file that a node at the given depth is not expanded for any more. -/
def Settled (q : Inquiry) (visited : List Path) (depth : Nat) (f : Path) : Prop :=
  (q.key f).memSame visited = true ∨ ¬ q.Worth depth f

/-- What is settled stays so: of a file that is not worth it nothing changes, and a visited key stays
visited. -/
theorem Settled.mono {q : Inquiry} {vs ws : List Path} {depth : Nat} {f : Path}
    (h : q.Settled vs depth f) (hs : vs ⊆ ws) : q.Settled ws depth f :=
  h.imp (memSame_mono hs) id

theorem isDeep_eq_true_iff {q : Inquiry} {depth : Nat} :
    q.isDeep depth = true ↔ ∃ max, q.limits.maxDepth = some max ∧ max ≤ depth := by
  simp [isDeep, Option.any_eq_true]

theorem isDeep_eq_false_iff {q : Inquiry} {depth : Nat} :
    q.isDeep depth = false ↔ ∀ max, q.limits.maxDepth = some max → depth < max := by
  unfold isDeep
  cases q.limits.maxDepth <;> simp

theorem isDeep_of_maxDepth_none {q : Inquiry} (h : q.limits.maxDepth = none) (depth : Nat) :
    q.isDeep depth = false := by
  simp [isDeep, h]

theorem isFull_eq_true_iff {q : Inquiry} {s : Stats} :
    q.isFull s = true ↔ ∃ max, q.limits.maxNodes = some max ∧ max ≤ s.nodes := by
  simp [isFull, Option.any_eq_true]

theorem isFull_eq_false_iff {q : Inquiry} {s : Stats} :
    q.isFull s = false ↔ ∀ max, q.limits.maxNodes = some max → s.nodes < max := by
  unfold isFull
  cases q.limits.maxNodes <;> simp

section Verdict

variable {q : Inquiry} {visited : List Path} {f : Path} {depth : Nat}

theorem verdict_eq_visited_iff :
    q.verdict visited f depth = .visited ↔ (q.key f).memSame visited = true := by
  unfold verdict
  cases (q.key f).memSame visited <;> cases q.admits f <;>
    cases q.limits.maxDepth.any (fun max => decide (max ≤ depth)) <;> simp

/-- The gate is asked before the depth, so a link that is refused counts as refused however deep it
lies. -/
theorem verdict_eq_gated_iff :
    q.verdict visited f depth = .gated ↔
      (q.key f).memSame visited = false ∧ q.admits f = false := by
  unfold verdict
  cases (q.key f).memSame visited <;> cases q.admits f <;>
    cases q.limits.maxDepth.any (fun max => decide (max ≤ depth)) <;> simp

theorem verdict_eq_tooDeep_iff :
    q.verdict visited f depth = .tooDeep ↔
      (q.key f).memSame visited = false ∧ q.admits f = true ∧ q.isDeep depth = true := by
  unfold verdict isDeep
  cases (q.key f).memSame visited <;> cases q.admits f <;>
    cases q.limits.maxDepth.any (fun max => decide (max ≤ depth)) <;> simp

theorem verdict_eq_scheduled_iff :
    q.verdict visited f depth = .scheduled ↔
      (q.key f).memSame visited = false ∧ q.Worth depth f := by
  unfold verdict Worth isDeep
  cases (q.key f).memSame visited <;> cases q.admits f <;>
    cases q.limits.maxDepth.any (fun max => decide (max ≤ depth)) <;> simp

theorem settled_of_verdict_ne (h : q.verdict visited f depth ≠ .scheduled) :
    q.Settled visited depth f := by
  by_cases hm : (q.key f).memSame visited = true
  · exact Or.inl hm
  · refine Or.inr fun hw => h (verdict_eq_scheduled_iff.mpr ⟨?_, hw⟩)
    simpa using hm

end Verdict

/-! ## 2. The scheduled links -/

def scheduled : List (Path × Verdict) → List Path
  | [] => []
  | (f, v) :: rest => if v = .scheduled then f :: scheduled rest else scheduled rest

@[simp] theorem scheduled_nil : scheduled [] = [] := rfl

@[simp] theorem scheduled_cons_node (f : Path) (rest : List (Path × Verdict)) :
    scheduled ((f, .scheduled) :: rest) = f :: scheduled rest := rfl

theorem scheduled_cons_leaf {f : Path} {v : Verdict} (hv : v ≠ .scheduled)
    (rest : List (Path × Verdict)) : scheduled ((f, v) :: rest) = scheduled rest := if_neg hv

theorem mem_of_mem_scheduled {f : Path} {links : List (Path × Verdict)}
    (h : f ∈ scheduled links) : f ∈ links.map (·.1) := by
  induction links with
  | nil => exact absurd h (by simp)
  | cons link rest ih =>
    obtain ⟨g, v⟩ := link
    by_cases hv : v = .scheduled
    · subst hv
      rcases List.mem_cons.mp h with rfl | h
      · simp
      · exact List.mem_cons_of_mem _ (ih h)
    · rw [scheduled_cons_leaf hv] at h
      exact List.mem_cons_of_mem _ (ih h)

/-! ## 3. Attaching, computed -/

/-- The links of a node at the given depth with their verdicts, as far as the tree may grow. -/
def attach (q : Inquiry) (depth : Nat) : List Path → Progress → List (Path × Verdict) × Progress
  | [], p => ([], p)
  | f :: fs, p =>
    if q.isFull p.stats then ([], p.cut)
    else
      let v := q.verdict p.visited f depth
      let (rest, p') := attach q depth fs (p.attached q f v depth)
      ((f, v) :: rest, p')

theorem attach_cons {q : Inquiry} {depth : Nat} {f : Path} {fs : List Path} {p : Progress}
    (h : q.isFull p.stats = false) :
    q.attach depth (f :: fs) p =
      ((f, q.verdict p.visited f depth) ::
        (q.attach depth fs (p.attached q f (q.verdict p.visited f depth) depth)).1,
       (q.attach depth fs (p.attached q f (q.verdict p.visited f depth) depth)).2) := by
  rw [attach]
  simp [h]

theorem attach_full {q : Inquiry} {depth : Nat} {f : Path} {fs : List Path} {p : Progress}
    (h : q.isFull p.stats = true) : q.attach depth (f :: fs) p = ([], p.cut) := by
  rw [attach]
  simp [h]

section Attaches

variable {q : Inquiry} {depth : Nat} {f : Path} {fs found : List Path} {p p' : Progress}
  {links : List (Path × Verdict)}

theorem attach_of_verdict {v : Verdict} (room : q.isFull p.stats = false)
    (hv : q.verdict p.visited f depth = v)
    (rest : q.attach depth fs (p.attached q f v depth) = (links, p')) :
    q.attach depth (f :: fs) p = ((f, v) :: links, p') := by
  rw [attach_cons room, hv, rest]

/-- What the rules attach is what is computed. Each rule asks for what the verdict asks for, and counts
and marks what is counted and marked for that verdict. -/
theorem Attaches.attach_eq (h : q.Attaches depth found p links p') :
    q.attach depth found p = (links, p') := by
  induction h with
  | done => rfl
  | full hmax hfull => exact attach_full (isFull_eq_true_iff.mpr ⟨_, hmax, hfull⟩)
  | visited room old _ ih =>
    exact attach_of_verdict (isFull_eq_false_iff.mpr room)
      (verdict_eq_visited_iff.mpr (memSame_iff.mpr old)) ih
  | gated room new gate _ ih =>
    exact attach_of_verdict (isFull_eq_false_iff.mpr room)
      (verdict_eq_gated_iff.mpr ⟨memSame_eq_false_iff.mpr new, gate⟩) ih
  | tooDeep room new gate hmax hdeep _ ih =>
    exact attach_of_verdict (isFull_eq_false_iff.mpr room)
      (verdict_eq_tooDeep_iff.mpr
        ⟨memSame_eq_false_iff.mpr new, gate, isDeep_eq_true_iff.mpr ⟨_, hmax, hdeep⟩⟩) ih
  | scheduled room new gate shallow _ ih =>
    exact attach_of_verdict (isFull_eq_false_iff.mpr room)
      (verdict_eq_scheduled_iff.mpr
        ⟨memSame_eq_false_iff.mpr new, gate, isDeep_eq_false_iff.mpr shallow⟩) ih

/-- Some rule always applies: the tree is full, or the verdict on the next file names the rule. -/
theorem attaches_attach (q : Inquiry) (depth : Nat) (found : List Path) (p : Progress) :
    q.Attaches depth found p (q.attach depth found p).1 (q.attach depth found p).2 := by
  induction found generalizing p with
  | nil => exact .done
  | cons f fs ih =>
    by_cases hfull : q.isFull p.stats = true
    · obtain ⟨max, hmax, hle⟩ := isFull_eq_true_iff.mp hfull
      rw [attach_full hfull]
      exact .full hmax hle
    · have hfree : q.isFull p.stats = false := by simpa using hfull
      have room := isFull_eq_false_iff.mp hfree
      rw [attach_cons hfree]
      cases hv : q.verdict p.visited f depth with
      | visited => exact .visited room (memSame_iff.mp (verdict_eq_visited_iff.mp hv)) (ih _)
      | gated =>
        obtain ⟨hnew, hgate⟩ := verdict_eq_gated_iff.mp hv
        exact .gated room (memSame_eq_false_iff.mp hnew) hgate (ih _)
      | tooDeep =>
        obtain ⟨hnew, hgate, hdeep⟩ := verdict_eq_tooDeep_iff.mp hv
        obtain ⟨max, hmax, hle⟩ := isDeep_eq_true_iff.mp hdeep
        exact .tooDeep room (memSame_eq_false_iff.mp hnew) hgate hmax hle (ih _)
      | scheduled =>
        obtain ⟨hnew, hgate, hshallow⟩ := verdict_eq_scheduled_iff.mp hv
        exact .scheduled room (memSame_eq_false_iff.mp hnew) hgate
          (isDeep_eq_false_iff.mp hshallow) (ih _)

/-- **The rules of attaching and its computation agree.** -/
theorem attaches_iff :
    q.Attaches depth found p links p' ↔ q.attach depth found p = (links, p') := by
  refine ⟨Attaches.attach_eq, fun h => ?_⟩
  have hall := attaches_attach q depth found p
  rwa [h] at hall

end Attaches

/-! ## 4. One round of attaching -/

/-- What one round of attaching does: from the found files and the progress `p` it makes the links
and the progress `p'`. -/
structure Attached (q : Inquiry) (depth : Nat) (found : List Path) (p : Progress)
    (links : List (Path × Verdict)) (p' : Progress) : Prop where
  /-- The links are the found files, up to where the tree is full. -/
  front : links.map (·.1) <+: found
  /-- Without a bound on nodes all found files become links. -/
  all : q.limits.maxNodes = none → links.map (·.1) = found
  /-- The scheduled files are visited from here on, and no others. -/
  visited : p'.visited = ((scheduled links).map q.key).reverse ++ p.visited
  lookups : p'.lookups = p.lookups
  expanded : p'.stats.expanded = p.stats.expanded
  /-- A scheduled file was worth it, and no two keys that were visited became the same. -/
  worth : ∀ f ∈ scheduled links, q.Worth depth f
  apart : Apart p.visited → Apart p'.visited
  settled : ∀ f ∈ links.map (·.1), q.Settled p'.visited depth f

/-- The spec of a round, by recursion on the found files. The case split is the code's: the tree is
full, or the next file is scheduled, or it is settled at once. -/
theorem attached_attach (q : Inquiry) (depth : Nat) (found : List Path) (p : Progress) :
    q.Attached depth found p (q.attach depth found p).1 (q.attach depth found p).2 := by
  induction found generalizing p with
  | nil =>
    exact ⟨List.prefix_refl _, fun _ => rfl, rfl, rfl, rfl, by simp [attach], id,
      by simp [attach]⟩
  | cons f fs ih =>
    by_cases hfull : q.isFull p.stats = true
    · rw [attach_full hfull]
      refine ⟨List.nil_prefix, fun hn => ?_, rfl, rfl, rfl, by simp, id, by simp⟩
      simp [isFull, hn] at hfull
    · rw [attach_cons (by simpa using hfull)]
      obtain ⟨hfront, hall, hvis, hlook, hexp, hworth, hapart, hset⟩ :=
        ih (p.attached q f (q.verdict p.visited f depth) depth)
      generalize q.attach depth fs (p.attached q f (q.verdict p.visited f depth) depth) = r at *
      by_cases hv : q.verdict p.visited f depth = .scheduled
      · -- the key of `f` is visited before the rest is attached
        obtain ⟨hnew, hw⟩ := verdict_eq_scheduled_iff.mp hv
        have hpv : (p.attached q f (q.verdict p.visited f depth) depth).visited =
            q.key f :: p.visited := by simp [Progress.attached, hv]
        rw [hpv] at hvis hapart
        rw [hv]
        refine ⟨?_, fun hn => by simp [hall hn], ?_, hlook, hexp, ?_,
          fun hp => hapart (hp.cons hnew), ?_⟩
        · exact List.prefix_cons_inj f |>.mpr hfront
        · simp [hvis]
        · intro g hg
          rcases List.mem_cons.mp hg with rfl | hg
          · exact hw
          · exact hworth g hg
        · intro g hg
          rcases List.mem_cons.mp hg with rfl | hg
          · exact Or.inl (memSame_of_mem (by simp [hvis]))
          · exact hset g hg
      · -- `f` becomes a leaf, and the rest is attached with the same visited keys
        have hpv : (p.attached q f (q.verdict p.visited f depth) depth).visited = p.visited := by
          simp [Progress.attached, hv]
        rw [hpv] at hvis hapart
        refine ⟨?_, fun hn => by simp [hall hn], ?_, hlook, hexp, ?_, hapart, ?_⟩
        · exact List.prefix_cons_inj f |>.mpr hfront
        · rw [scheduled_cons_leaf hv]
          exact hvis
        · rw [scheduled_cons_leaf hv]
          exact hworth
        · intro g hg
          rcases List.mem_cons.mp hg with rfl | hg
          · refine (settled_of_verdict_ne hv).mono ?_
            rw [hvis]
            exact List.subset_append_right _ _
          · exact hset g hg

theorem Attached.visited_subset {q : Inquiry} {depth : Nat} {found : List Path} {p p' : Progress}
    {links : List (Path × Verdict)} (h : q.Attached depth found p links p') :
    p.visited ⊆ p'.visited := by
  rw [h.visited]
  exact List.subset_append_right _ _

theorem Attached.mem_found {q : Inquiry} {depth : Nat} {found : List Path} {p p' : Progress}
    {links : List (Path × Verdict)} (h : q.Attached depth found p links p') {f : Path}
    (hf : f ∈ scheduled links) : f ∈ found :=
  h.front.subset (mem_of_mem_scheduled hf)

/-! ## 5. A search and the round after it -/

/-- A search that is answered is recorded, and visits nothing. -/
theorem lookUp_eq_ok_iff {q : Inquiry} {f : Path} {p p' : Progress} {found : List Path} :
    q.lookUp f p = .ok (found, p') ↔ q.referrers f = .ok found ∧ p' = p.lookedUp f found := by
  unfold lookUp
  cases q.referrers f with
  | error e => simp
  | ok found' =>
    constructor
    · intro h
      simp only [Except.ok.injEq, Prod.mk.injEq] at h
      exact ⟨by rw [h.1], by rw [← h.2, h.1]⟩
    · rintro ⟨h, rfl⟩
      simp only [Except.ok.injEq] at h
      rw [h]

/-- A node is expanded by a search and a round of attaching. -/
theorem opens_iff {q : Inquiry} {depth : Nat} {f : Path} {found : List Path} {p p' : Progress}
    {links : List (Path × Verdict)} :
    q.Opens depth f found p links p' ↔
      q.lookUp f p = .ok (found, p.lookedUp f found) ∧
        q.attach depth found (p.lookedUp f found) = (links, p') := by
  rw [lookUp_eq_ok_iff, ← attaches_iff]
  exact ⟨fun h => ⟨⟨h.look, rfl⟩, h.attaches⟩, fun h => ⟨h.1.1, h.2⟩⟩

/-- What is done where a node is expanded, the search being counted and recorded already. -/
theorem Opens.attached {q : Inquiry} {depth : Nat} {f : Path} {found : List Path} {p p' : Progress}
    {links : List (Path × Verdict)} (h : q.Opens depth f found p links p') :
    q.Attached depth found (p.lookedUp f found) links p' := by
  have hatt := attached_attach q depth found (p.lookedUp f found)
  rwa [(opens_iff.mp h).2] at hatt

/-- Once the search is answered, nothing stands in the way of attaching. -/
theorem exists_opens {q : Inquiry} {f : Path} {found : List Path} (depth : Nat) (p : Progress)
    (look : q.referrers f = .ok found) : ∃ links p', q.Opens depth f found p links p' :=
  ⟨_, _, look, attaches_attach q depth found _⟩

theorem Opens.of_lookUp {q : Inquiry} {depth : Nat} {f : Path} {found : List Path}
    {p p₁ p' : Progress} {links : List (Path × Verdict)} (look : q.lookUp f p = .ok (found, p₁))
    (att : q.attach depth found p₁ = (links, p')) : q.Opens depth f found p links p' := by
  obtain ⟨-, rfl⟩ := lookUp_eq_ok_iff.mp look
  exact opens_iff.mpr ⟨look, att⟩

end Citator.Inquiry

import Citator.Proofs.Expansion.Counts
import Citator.Proofs.Expansion.Root

/-!
# `Citator.Proofs.Expansion.Sums` — the counts of an expansion without bounds, file by file

Where every found file becomes a link, a count of links is a sum over the files that were searched
for: each adds what its referrers add, whenever it was searched for. The nodes are the root and all
referrers of these files. The links that the gate keeps out are the referrers that it refuses, the
root's file excepted: for that one the gate is not asked, since it is visited from the start. Other
files that were visited the gate does not refuse, because it was asked before.

So these counts depend on which files were searched for, and not on the order of anything.
-/

namespace Citator

open Citator.Path
open scoped List

namespace Inquiry

variable {q : Inquiry} {depth : Nat} {links : List (Path × Verdict)} {p p' : Progress}
  {ts : List RefTree} {P : Path → Bool}

/-- The files that refer to a file; none, if it has no token. -/
def found (q : Inquiry) (g : Path) : List Path := (q.referrers g).toOption.getD []

theorem found_of_eq_ok {g : Path} {found : List Path} (h : q.referrers g = .ok found) :
    q.found g = found := by
  rw [Inquiry.found, h]
  rfl

theorem found_of_eq_error {g : Path} {err : EmptyTarget} (h : q.referrers g = .error err) :
    q.found g = [] := by
  rw [Inquiry.found, h]
  rfl

/-- How many references there are to some files from files with a property. -/
def cited (q : Inquiry) (P : Path → Bool) (files : List Path) : Nat :=
  (files.flatMap q.found).countP P

theorem cited_cons (q : Inquiry) (P : Path → Bool) (g : Path) (files : List Path) :
    q.cited P (g :: files) = (q.found g).countP P + q.cited P files := by
  rw [cited, List.flatMap_cons, List.countP_append]
  rfl

/-- The order does not matter, of the files and of what refers to each. -/
theorem cited_perm {r : Inquiry} {files files' : List Path} (hp : files ~ files')
    (h : ∀ g ∈ files, q.found g ~ r.found g) : q.cited P files = r.cited P files' :=
  (hp.flatMap h).countP_eq P

/-- A growth that counts what every search adds has the sum in the end, if it had it at the start. -/
theorem Grows.eq_cited {Q : Progress → Prop} {count : Stats → Nat}
    (hround : ∀ {depth f found p links p'}, q.Round depth f found p links p' → Q p →
      Q p' ∧ count p'.stats = count p.stats + found.countP P)
    (hg : q.Grows depth links p ts p') (hQ : Q p) {k : Nat}
    (hp : count p.stats = k + q.cited P (p.lookups.map (·.file))) :
    count p'.stats = k + q.cited P (p'.lookups.map (·.file)) := by
  refine (hg.invariant (P := fun x => Q x ∧ count x.stats = k + q.cited P (x.lookups.map (·.file)))
    (fun hr hx => ?_) ⟨hQ, hp⟩).2
  obtain ⟨hQ', hcount⟩ := hround hr hx.1
  refine ⟨hQ', ?_⟩
  rw [hcount, hx.2, hr.attached.lookups]
  simp only [Progress.lookedUp, List.map_cons, cited_cons, found_of_eq_ok hr.look]
  omega

theorem Round.length_links {f : Path} {found : List Path} (hr : q.Round depth f found p links p')
    (hnone : q.limits.maxNodes = none) : links.length = found.length := by
  rw [← hr.attached.all hnone, List.length_map]

theorem Round.nodes_eq {f : Path} {found : List Path} (hr : q.Round depth f found p links p')
    (hnone : q.limits.maxNodes = none) : p'.stats.nodes = p.stats.nodes + found.length := by
  rw [hr.tallied.nodes, hr.length_links hnone]
  rfl

theorem Grows.skippedDepth_eq (hnone : q.limits.maxDepth = none) (hg : q.Grows depth links p ts p') :
    p'.stats.skippedDepth = p.stats.skippedDepth := by
  refine hg.invariant (P := fun x => x.stats.skippedDepth = p.stats.skippedDepth) (fun hr hx => ?_) rfl
  rw [hr.tallied.deep hnone]
  exact hx

end Inquiry

namespace Finder

variable {f : Finder} {name : String} {r : Path} {e : Expansion}

/-! ## 1. What the gate refuses -/

/-- Whether the gate keeps a link to a file out, when the root's file is `r`. -/
def refuses (f : Finder) (r g : Path) : Bool := !f.admits g && !decide (r.Same g)

/-- What was visited is the root's file and files that the gate admits. -/
structure Screened (f : Finder) (r : Path) (visited : List Path) : Prop where
  root : r.memSame visited = true
  admits : ∀ g ∈ f.snapshot.files.map (·.path), g.memSame visited = true →
    r.Same g ∨ f.admits g = true

/-- Then the gate is what keeps a link out just if it refuses the file. -/
theorem gated_iff_refuses (hm : f.InMemory) {before after visited : List Path}
    (hb : f.Screened r before) (ha : f.Screened r after) (hbefore : before ⊆ visited)
    (hafter : visited ⊆ after) {g : Path} (hg : g ∈ f.snapshot.files.map (·.path)) (depth : Nat) :
    f.inquiry.verdict visited g depth = .gated ↔ f.refuses r g = true := by
  have hkey : f.inquiry.key g = g := by
    rw [f.key_inquiry, hm.key]
    rfl
  have hrefuses : f.refuses r g = true ↔ ¬ r.Same g ∧ f.admits g = false := by
    simp [refuses, and_comm]
  rw [Inquiry.verdict_eq_gated_iff, hkey, hrefuses]
  refine and_congr_left fun hadm => ?_
  constructor
  · -- the root's file is visited from the start
    intro hnot hsame
    obtain ⟨k, hk, hkr⟩ := memSame_iff.mp (memSame_mono hbefore hb.root)
    exact memSame_eq_false_iff.mp hnot k hk (hkr.trans hsame)
  · intro hroot
    cases hvis : g.memSame visited with
    | false => rfl
    | true =>
      rcases ha.admits g hg (memSame_mono hafter hvis) with hsame | hadm'
      · exact absurd hsame hroot
      · exact absurd (hadm.symm.trans hadm') (by simp)

/-- A round visits files that the gate admits. -/
theorem Screened.round (hm : f.InMemory) {depth : Nat} {g : Path} {found : List Path}
    {links : List (Path × Verdict)} {p p' : Progress} (hs : f.Screened r p.visited)
    (hr : f.inquiry.Round depth g found p links p') : f.Screened r p'.visited := by
  have hvis := hr.attached.visited
  rw [f.key_inquiry, hm.key, List.map_id] at hvis
  refine ⟨memSame_mono hr.attached.visited_subset hs.root, fun h hh hmem => ?_⟩
  obtain ⟨k, hk, hsame⟩ := memSame_iff.mp hmem
  rw [hvis] at hk
  rcases List.mem_append.mp hk with hk | hk
  · -- the file that was scheduled is this one
    have hk := List.mem_reverse.mp hk
    have hfile := f.referrers_subset g found hr.look (hr.attached.mem_found hk)
    rw [← hm.apart.eq_of_same hfile hh hsame]
    exact Or.inr (hr.attached.worth k hk).1
  · exact hs.admits h hh (memSame_iff.mpr ⟨k, hk, hsame⟩)

theorem Screened.skippedGate_eq (hm : f.InMemory) (hnone : f.limits.maxNodes = none) {depth : Nat}
    {g : Path} {found : List Path} {links : List (Path × Verdict)} {p p' : Progress}
    (hs : f.Screened r p.visited) (hr : f.inquiry.Round depth g found p links p') :
    p'.stats.skippedGate = p.stats.skippedGate + found.countP (f.refuses r) := by
  have hall := hr.attached.all hnone
  have hsub := f.referrers_subset g found hr.look
  have hcount : (links.countP fun l => decide (l.2 = .gated)) = found.countP (f.refuses r) := by
    rw [← hall, List.countP_map]
    refine List.countP_congr fun l hl => ?_
    obtain ⟨visited, hbefore, hafter, hv⟩ := hr.verdicts l hl
    have hl' : l.1 ∈ f.snapshot.files.map (·.path) := hsub (hall ▸ List.mem_map_of_mem hl)
    rw [decide_eq_true_iff, hv]
    exact gated_iff_refuses hm hs (hs.round hm hr) hbefore hafter hl' depth
  rw [hr.tallied.gated, hcount]
  rfl

/-- At the start the root is visited, and nothing else. -/
theorem screened_initial (hm : f.InMemory) (habs : f.snapshot.root.isAbsolute = true)
    (hr : r ∈ f.snapshot.files.map (·.path)) : f.Screened r (f.initial r).visited := by
  have hkey := rootKey_same hm habs hr
  refine ⟨memSame_iff.mpr ⟨_, List.mem_singleton.mpr rfl, hkey⟩, fun g _ hmem => ?_⟩
  obtain ⟨k, hk, hsame⟩ := memSame_iff.mp hmem
  rw [List.mem_singleton.mp hk] at hsame
  exact Or.inl (hkey.symm.trans hsame)

/-! ## 2. The sums -/

/-- **The counts of a build without bounds are sums over the files that it searched for.** -/
theorem counts_of_build (hm : f.InMemory) (habs : f.snapshot.root.isAbsolute = true)
    (hdepth : f.limits.maxDepth = none) (hnodes : f.limits.maxNodes = none)
    (hr : r ∈ f.snapshot.files.map (·.path)) (hfile : (f.rootNode name).file = r)
    (hb : f.build name = .ok e) :
    e.stats.nodes = 1 + f.inquiry.cited (fun _ => true) (e.lookups.map (·.file)) ∧
      e.stats.skippedGate = f.inquiry.cited (f.refuses r) (e.lookups.map (·.file)) ∧
      e.stats.skippedDepth = 0 := by
  rcases (grows_of_build hb).2 with ⟨hzero, -⟩ | ⟨-, ls, p, hg, -, hstats, hlook⟩
  · rw [hdepth] at hzero
    exact absurd hzero (by simp)
  · rw [hfile] at hg
    -- the searches are listed in the order in which they were made
    have hsum : ∀ P, f.inquiry.cited P (e.lookups.map (·.file)) =
        f.inquiry.cited P (p.lookups.map (·.file)) := by
      intro P
      rw [hlook, List.map_reverse]
      exact Inquiry.cited_perm (List.reverse_perm _) fun _ _ => List.Perm.refl _
    rw [hsum, hsum, hstats]
    refine ⟨?_, ?_, hg.skippedDepth_eq hdepth⟩
    · refine hg.eq_cited (Q := fun _ => True) (fun hround _ => ?_) trivial rfl
      rw [List.countP_true]
      exact ⟨trivial, hround.nodes_eq hnodes⟩
    · have hgate := hg.eq_cited (Q := fun x => f.Screened r x.visited)
        (fun hround hs => ⟨hs.round hm hround, hs.skippedGate_eq hm hnodes hround⟩)
        (screened_initial hm habs hr) (k := 0) rfl
      rwa [Nat.zero_add] at hgate

end Finder
end Citator

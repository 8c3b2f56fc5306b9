import Citator.Path.Relative

/-!
# `Citator.Proofs.Path.Sameness` — paths in lists, by what they name

A list of visited keys and a list of corpus files are both lists of paths of which no two are the
same. `Apart` says so. Where it holds, a path is determined by its components: that is what lets a
traversal that compares components be described with plain equality of paths.
-/

namespace Citator.Path

theorem memSame_iff {p : Path} {ps : List Path} : p.memSame ps = true ↔ ∃ q ∈ ps, q.Same p := by
  simp [memSame]

theorem memSame_eq_false_iff {p : Path} {ps : List Path} :
    p.memSame ps = false ↔ ∀ q ∈ ps, ¬ q.Same p := by
  simp [memSame]

theorem memSame_of_mem {p : Path} {ps : List Path} (h : p ∈ ps) : p.memSame ps = true :=
  memSame_iff.mpr ⟨p, h, Same.refl p⟩

/-- A key that was visited stays visited, since keys are only added. -/
theorem memSame_mono {p : Path} {ps qs : List Path} (hs : ps ⊆ qs) (h : p.memSame ps = true) :
    p.memSame qs = true := by
  obtain ⟨q, hq, hsame⟩ := memSame_iff.mp h
  exact memSame_iff.mpr ⟨q, hs hq, hsame⟩

/-! ## 1. Lists without repetitions -/

/-- No two of the paths are the same. -/
def Apart (ps : List Path) : Prop := ps.Pairwise fun p q => ¬ p.Same q

/-- Visited keys stay apart in this way: a key is added only where none is the same. -/
theorem Apart.cons {p : Path} {ps : List Path} (h : Apart ps) (hp : p.memSame ps = false) :
    Apart (p :: ps) := by
  refine List.pairwise_cons.mpr ⟨fun q hq hsame => ?_, h⟩
  exact memSame_eq_false_iff.mp hp q hq hsame.symm

theorem Apart.cons_congr {p q : Path} {ps : List Path} (h : Apart (p :: ps)) (hsame : p.Same q) :
    Apart (q :: ps) := by
  obtain ⟨hp, hps⟩ := List.pairwise_cons.mp h
  exact List.pairwise_cons.mpr ⟨fun r hr hqr => hp r hr (hsame.trans hqr), hps⟩

theorem Apart.sublist {ps qs : List Path} (h : Apart qs) (hs : ps.Sublist qs) : Apart ps :=
  List.Pairwise.sublist hs h

theorem Apart.perm {ps qs : List Path} (h : Apart ps) (hp : ps.Perm qs) : Apart qs :=
  (hp.pairwise_iff fun hne hsame => hne hsame.symm).mp h

theorem Apart.nodup {ps : List Path} (h : Apart ps) : ps.Nodup := by
  refine List.Pairwise.imp (fun {p q} hne heq => ?_) h
  exact hne (heq ▸ Same.refl p)

/-- In a list of paths that are apart, what a path names determines its text. -/
theorem Apart.eq_of_same {ps : List Path} (h : Apart ps) {p q : Path} (hp : p ∈ ps) (hq : q ∈ ps)
    (hsame : p.Same q) : p = q := by
  induction ps with
  | nil => exact absurd hp (by simp)
  | cons r rest ih =>
    obtain ⟨hr, hrest⟩ := List.pairwise_cons.mp h
    rcases List.mem_cons.mp hp with hpr | hp
    · rcases List.mem_cons.mp hq with hqr | hq
      · rw [hpr, hqr]
      · exact absurd (hpr ▸ hsame) (hr q hq)
    · rcases List.mem_cons.mp hq with hqr | hq
      · exact absurd (hqr ▸ hsame).symm (hr p hp)
      · exact ih hrest hp hq

/-- Paths that are apart name a thing at most once. -/
theorem Apart.countP_same_le_one {ps : List Path} (h : Apart ps) (g : Path) :
    ps.countP (fun p => decide (p.Same g)) ≤ 1 := by
  induction ps with
  | nil => simp
  | cons p ps ih =>
    obtain ⟨hp, hps⟩ := List.pairwise_cons.mp h
    by_cases hsame : p.Same g
    · have hnone : ps.countP (fun q => decide (q.Same g)) = 0 := by
        rw [List.countP_eq_zero]
        intro q hq hqg
        exact hp q hq (hsame.trans (of_decide_eq_true hqg).symm)
      rw [List.countP_cons_of_pos (by simpa using hsame)]
      omega
    · rw [List.countP_cons_of_neg (by simpa using hsame)]
      exact ih hps

/-! ## 2. First spellings -/

theorem mem_of_mem_distinct {p : Path} {ps : List Path} (h : p ∈ distinct ps) : p ∈ ps := by
  induction ps with
  | nil => exact absurd h (by simp [distinct_nil])
  | cons q qs ih =>
    rw [distinct_cons] at h
    rcases List.mem_cons.mp h with rfl | h
    · exact List.mem_cons_self
    · exact List.mem_cons_of_mem _ (ih (List.mem_filter.mp h).1)

/-- No file gets lost where spellings are dropped. The one that stays is the first, and it need not be
the one that was asked for. -/
theorem exists_same_mem_distinct {p : Path} {ps : List Path} (h : p ∈ ps) :
    ∃ q ∈ distinct ps, q.Same p := by
  induction ps with
  | nil => exact absurd h (by simp)
  | cons q qs ih =>
    rw [distinct_cons]
    rcases List.mem_cons.mp h with rfl | h
    · exact ⟨p, List.mem_cons_self, Same.refl p⟩
    · obtain ⟨r, hr, hsame⟩ := ih h
      by_cases hq : q.Same r
      · exact ⟨q, List.mem_cons_self, hq.trans hsame⟩
      · exact ⟨r, List.mem_cons_of_mem _ (List.mem_filter.mpr ⟨hr, by simpa using hq⟩), hsame⟩

/-- Where what a path names determines its text, no spelling is dropped. -/
theorem mem_distinct_iff {p : Path} {ps : List Path}
    (htext : ∀ q ∈ ps, ∀ r ∈ ps, q.Same r → q = r) : p ∈ distinct ps ↔ p ∈ ps := by
  refine ⟨mem_of_mem_distinct, fun h => ?_⟩
  obtain ⟨q, hq, hsame⟩ := exists_same_mem_distinct h
  rwa [← htext q (mem_of_mem_distinct hq) p h hsame]

/-! ## 3. A list that grows -/

/-- The list with a path behind it, unless it has one that is the same. -/
def keep (ps : List Path) (p : Path) : List Path := if p.memSame ps then ps else ps ++ [p]

theorem keep_of_memSame {ps : List Path} {p : Path} (h : p.memSame ps = true) : keep ps p = ps :=
  if_pos h

theorem keep_of_not_memSame {ps : List Path} {p : Path} (h : p.memSame ps = false) :
    keep ps p = ps ++ [p] := if_neg (by simp [h])

theorem memSame_append (p : Path) (ps qs : List Path) :
    p.memSame (ps ++ qs) = (p.memSame ps || p.memSame qs) := List.any_append

/-- What is kept of several paths, one after the other, are their first spellings, without those
that were there. -/
theorem foldl_keep_eq (fs ps : List Path) :
    fs.foldl keep ps = ps ++ (distinct fs).filter fun p => !p.memSame ps := by
  induction fs generalizing ps with
  | nil => simp [distinct_nil]
  | cons f fs ih =>
    rw [List.foldl_cons, ih, distinct_cons, List.filter_cons, List.filter_filter]
    cases hf : f.memSame ps with
    | true =>
      -- a path that is the same as `f` is there as well
      rw [keep_of_memSame hf]
      simp only [Bool.not_true, Bool.false_eq_true, if_false]
      congr 1
      refine List.filter_congr fun p _ => ?_
      by_cases hsame : f.Same p
      · obtain ⟨q, hq, hqf⟩ := memSame_iff.mp hf
        simp [memSame_iff.mpr ⟨q, hq, hqf.trans hsame⟩]
      · simp [hsame]
    | false =>
      rw [keep_of_not_memSame hf, List.append_assoc]
      simp only [Bool.not_false, if_true, List.singleton_append]
      congr 2
      refine List.filter_congr fun p _ => ?_
      rw [memSame_append]
      simp [memSame]

end Citator.Path

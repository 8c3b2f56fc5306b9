import Citator.Proofs.Expansion.Counts
import Citator.Proofs.Expansion.Once

/-!
# `Citator.Proofs.Expansion.Turns` — the loop ends, whatever refers to what

A worklist is run for at most so many steps. The loop that it stands for knows no such number: it takes
the slot on top of the stack until none waits. `Ends` is that loop, given by rules, with the number of
its searches. Nothing in the rules says that it ends, and files that refer to each other in circles or
to themselves put slots on the stack again and again.

A turn can make the stack longer. What it makes smaller is `todo`: the slots that wait, together with
the files that are not visited yet. One slot is taken off, and for every slot that is put on there is a
file less to visit. So there are no more turns than there is to do at the start, one for the root and
one for each file; and as a search finds no more than all files, there is a bound on the nodes too.
-/

namespace Citator

open Citator.Path

namespace Worklist

variable {q : Inquiry} {files : List Path} {w w' : Worklist} {k : Nat} {r : Except Halt Worklist}

/-! ## 1. One turn -/

/-- The files that are left to visit and the slots that wait, together. -/
def todo (q : Inquiry) (files : List Path) (w : Worklist) : Nat :=
  q.unvisited files w.progress.visited + w.waiting.length

/-- What one turn makes of a worklist, where searches find no files but the given ones. -/
structure Turn (q : Inquiry) (files : List Path) (w w' : Worklist) : Prop where
  apart : Apart w'.progress.visited
  todo_lt : todo q files w' < todo q files w
  expanded : w'.progress.stats.expanded = w.progress.stats.expanded + 1
  nodes_le : w'.progress.stats.nodes ≤ w.progress.stats.nodes + files.length

/-- A turn is a round for the slot on top. What was found gets new slots, and those of the scheduled
files come onto the stack. -/
theorem exists_round_of_step (hw : w.waiting ≠ []) (hs : step q w = .ok w') :
    ∃ id depth waiting file found links, w.waiting = (id, depth) :: waiting ∧
      q.Round (depth + 1) file found w.progress links w'.progress ∧
      w'.waiting = stackOf w.slots.size (depth + 1) links ++ waiting := by
  obtain ⟨slots, stack, p⟩ := w
  cases stack with
  | nil => exact absurd rfl hw
  | cons top waiting =>
    obtain ⟨id, depth⟩ := top
    simp only [step] at hs
    generalize (slots.getD id default).file = file at hs
    cases hlook : q.lookUp file p with
    | error h =>
      rw [hlook] at hs
      cases hs
    | ok answer =>
      obtain ⟨found, p₁⟩ := answer
      rw [hlook] at hs
      simp only [bind, Except.bind, attachAll_eq, pure, Except.pure, Except.ok.injEq] at hs
      cases hatt : q.attach (depth + 1) found p₁ with
      | mk links p₂ =>
        rw [hatt] at hs
        subst hs
        exact ⟨id, depth, waiting, file, found, links, rfl,
          (Inquiry.Opens.of_lookUp hlook hatt).round, rfl⟩

section Files

variable (hfiles : ∀ f found, q.referrers f = .ok found → found.Sublist files)

include hfiles

/-- **Every turn leaves less to do.** -/
theorem turn_of_step (hap : Apart w.progress.visited) (hw : w.waiting ≠ [])
    (hs : step q w = .ok w') : Turn q files w w' := by
  obtain ⟨id, depth, waiting, file, found, links, hstack, hround, hwaiting⟩ :=
    exists_round_of_step hw hs
  have hsub := hfiles file found hround.look
  have hlinks : links.length ≤ files.length := by
    have hfront := hround.attached.front.length_le
    rw [List.length_map] at hfront
    exact Nat.le_trans hfront hsub.length_le
  constructor
  case apart => exact hround.attached.apart hap
  case todo_lt =>
    -- a slot was taken off, and each that was put on is for a file that was visited just now
    have hvisit := hround.attached.unvisited_le hsub.subset hap
    have hstill : (w.progress.lookedUp file found).visited = w.progress.visited := rfl
    rw [hstill] at hvisit
    rw [todo, todo, hwaiting, hstack, List.length_append, length_stackOf, List.length_cons]
    omega
  case expanded =>
    rw [hround.attached.expanded]
    rfl
  case nodes_le =>
    rw [hround.tallied.nodes]
    exact Nat.add_le_add_left hlinks _

end Files

/-! ## 2. The loop -/

/-- `Ends q k w r`: without any bound on its steps the loop comes from `w` to an end with `k` searches,
and `r` is where it ends: a worklist in which nothing waits, or the error of the last search. -/
inductive Ends (q : Inquiry) : Nat → Worklist → Except Halt Worklist → Prop where
  | done {w : Worklist} (hw : w.waiting = []) : Ends q 0 w (.ok w)
  | halt {w : Worklist} {h : Halt} (hw : w.waiting ≠ []) (hs : step q w = .error h) :
    Ends q 1 w (.error h)
  | turn {w w' : Worklist} {k : Nat} {r : Except Halt Worklist} (hw : w.waiting ≠ [])
    (hs : step q w = .ok w') (rest : Ends q k w' r) : Ends q (k + 1) w r

theorem run_succ (hw : w.waiting ≠ []) (fuel : Nat) :
    run q (fuel + 1) w = step q w >>= run q fuel := by
  rw [run]
  cases hstack : w.waiting with
  | nil => exact absurd hstack hw
  | cons top waiting => rfl

/-- A run with steps enough ends where the loop does. -/
theorem Ends.run_eq (he : Ends q k w r) {fuel : Nat} (hk : k ≤ fuel) : run q fuel w = r := by
  induction he generalizing fuel with
  | @done w hw =>
    obtain ⟨slots, waiting, p⟩ := w
    cases hw
    exact run_of_nothing_waits q fuel slots p
  | halt hw hs =>
    cases fuel with
    | zero => exact absurd hk (by simp)
    | succ fuel =>
      rw [run_succ hw, hs]
      rfl
  | turn hw hs _ ih =>
    cases fuel with
    | zero => exact absurd hk (by simp)
    | succ fuel =>
      rw [run_succ hw, hs]
      exact ih (Nat.le_of_succ_le_succ hk)

section Files

variable (hfiles : ∀ f found, q.referrers f = .ok found → found.Sublist files)

include hfiles

/-- **The loop ends**, with no more searches than there is to do. The induction is on what there is to
do: the stack alone would not go down. -/
theorem exists_ends (n : Nat) (w : Worklist) (hap : Apart w.progress.visited)
    (hn : todo q files w ≤ n) : ∃ k r, Ends q k w r ∧ k ≤ todo q files w := by
  induction n generalizing w with
  | zero =>
    have hw : w.waiting = [] := by
      rw [todo] at hn
      exact List.length_eq_zero_iff.mp (by omega)
    exact ⟨0, .ok w, .done hw, Nat.zero_le _⟩
  | succ n ih =>
    cases hwaiting : w.waiting with
    | nil => exact ⟨0, .ok w, .done hwaiting, Nat.zero_le _⟩
    | cons top waiting =>
      have hw : w.waiting ≠ [] := by simp [hwaiting]
      cases hs : step q w with
      | error h =>
        refine ⟨1, .error h, .halt hw hs, ?_⟩
        rw [todo, hwaiting, List.length_cons]
        exact Nat.le_add_left _ _
      | ok w' =>
        have hturn := turn_of_step hfiles hap hw hs
        have hlt := hturn.todo_lt
        obtain ⟨k, r, hends, hk⟩ := ih w' hturn.apart (by omega)
        exact ⟨k + 1, r, .turn hw hs hends, Nat.lt_of_le_of_lt hk hlt⟩

/-- What the searches of a loop count: each is one, and brings no more nodes than there are files. -/
theorem Ends.counts (he : Ends q k w r) (hap : Apart w.progress.visited) (hr : r = .ok w') :
    w'.progress.stats.expanded = w.progress.stats.expanded + k ∧
      w'.progress.stats.nodes ≤ w.progress.stats.nodes + k * files.length := by
  induction he with
  | done =>
    cases hr
    exact ⟨rfl, Nat.le_add_right _ _⟩
  | halt => cases hr
  | @turn w w₁ k r hw hs _ ih =>
    have hturn := turn_of_step hfiles hap hw hs
    obtain ⟨hexpanded, hnodes⟩ := ih hturn.apart hr
    have hmore := hturn.nodes_le
    refine ⟨?_, ?_⟩
    · rw [hexpanded, hturn.expanded]
      omega
    · rw [Nat.succ_mul]
      omega

end Files
end Worklist

/-! ## 3. Expansions -/

namespace Finder

variable {f : Finder} {name : String} {e : Expansion}

theorem referrers_sublist (f : Finder) (g : Path) (found : List Path)
    (h : f.inquiry.referrers g = .ok found) : found.Sublist (f.snapshot.files.map (·.path)) :=
  Snapshot.referrers_sublist h

/-- The loop of an expansion ends, with one search for the root and at most one for each file. -/
theorem exists_ends_start (f : Finder) (root : Path) :
    ∃ k r, Worklist.Ends f.inquiry k (.start root (f.initial root)) r ∧ k ≤ f.searchBound := by
  obtain ⟨k, r, hends, hk⟩ := Worklist.exists_ends f.referrers_sublist _
    (.start root (f.initial root)) (f.apart_initial root) (Nat.le_refl _)
  refine ⟨k, r, hends, Nat.le_trans hk ?_⟩
  -- one slot waits, and no more files are left to visit than there are
  exact f.unvisited_lt_searchBound (f.initial root).visited

/-- The counts of a build are those with which the loop of its root ends. -/
theorem counts_le_of_build (hb : f.build name = .ok e) :
    e.stats.expanded ≤ f.searchBound ∧
      e.stats.nodes ≤ 1 + e.stats.expanded * f.snapshot.files.length := by
  by_cases hmax : f.limits.maxDepth = some 0
  · rw [build_of_maxDepth_zero hmax] at hb
    cases hb
    exact ⟨Nat.zero_le _, Nat.le_add_right _ _⟩
  · obtain ⟨w, -, hrun, -, -, -, hstats⟩ := exists_run_of_build hb hmax
    obtain ⟨k, r, hends, hk⟩ := f.exists_ends_start (f.rootNode name).file
    obtain ⟨hexpanded, hnodes⟩ := hends.counts f.referrers_sublist
      (f.apart_initial (f.rootNode name).file) ((hends.run_eq hk).symm.trans hrun)
    rw [List.length_map] at hnodes
    have hzero : (f.initial (f.rootNode name).file).stats.expanded = 0 := rfl
    have hone : (f.initial (f.rootNode name).file).stats.nodes = 1 := rfl
    simp only [Worklist.start] at hexpanded hnodes
    rw [hzero, Nat.zero_add] at hexpanded
    rw [hone] at hnodes
    rw [hstats, hexpanded]
    exact ⟨hk, hnodes⟩

/-- **Every expansion is finite and bounded.** For every root the loop comes to an end, by itself and
not because its steps are counted: a run with `n + 1` steps or more, for `n` files, ends where the loop
does. It makes at most `n + 1` searches. So does a build, and each of its searches adds at most `n`
nodes. -/
theorem loop_ends (f : Finder) :
    (∀ root, ∃ k r, Worklist.Ends f.inquiry k (.start root (f.initial root)) r ∧
      k ≤ f.snapshot.files.length + 1 ∧
      ∀ fuel, f.searchBound ≤ fuel →
        Worklist.run f.inquiry fuel (.start root (f.initial root)) = r) ∧
    ∀ name e, f.build name = .ok e →
      e.stats.expanded ≤ f.snapshot.files.length + 1 ∧
        e.stats.nodes ≤ 1 + e.stats.expanded * f.snapshot.files.length := by
  refine ⟨fun root => ?_, fun name e hb => counts_le_of_build hb⟩
  obtain ⟨k, r, hends, hk⟩ := f.exists_ends_start root
  exact ⟨k, r, hends, hk, fun fuel hfuel => hends.run_eq (Nat.le_trans hk hfuel)⟩

/-- Two files below a relative root that refer to each other: the searches are as many as the bound
allows. -/
theorem loop_ends_pairBelowSrc : ∃ e, pairBelowSrc.build "a" = .ok e ∧
    pairBelowSrc.snapshot.files.length = 2 ∧ e.stats.expanded = 3 ∧ e.stats.nodes ≤ 1 + 3 * 2 := by
  obtain ⟨e, hb, hthree⟩ : ∃ e, pairBelowSrc.build "a" = .ok e ∧ e.stats.expanded = 3 :=
    exists_build_of_map (m := (·.stats.expanded)) (by decide +kernel)
  have htwo : pairBelowSrc.snapshot.files.length = 2 := by decide +kernel
  obtain ⟨-, hnodes⟩ := (loop_ends pairBelowSrc).2 "a" e hb
  rw [hthree, htwo] at hnodes
  exact ⟨e, hb, htwo, hthree, hnodes⟩

end Finder
end Citator

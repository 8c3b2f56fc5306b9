import Citator.Expansion.Finder
import Citator.Proofs.Expansion.Growth
import Citator.Proofs.Expansion.Slots

/-!
# `Citator.Proofs.Expansion.Simulation` — the worklist does what the recursion says

The worklist keeps a stack of slots; the recursion (`Inquiry.Grows`, `Inquiry.Halts`) keeps links and
trees. The two agree because of what lies on the stack: the scheduled links that a growth starts from,
on top of whatever waits behind them. A growth that comes to an end takes exactly those off, leaves
the rest of the stack as it was, and leaves its trees in the slots that its links started in
(`run_grows`). A growth that halts makes the run fail with the same error (`run_halts`).

Both are by induction on the rules, and both count: a run takes one step for each search. That the
number of searches is bounded by the files of the corpus is what makes the bound on steps that the
finder computes invisible: nothing is ever cut off by it.
-/

namespace Citator

open Citator.Path

namespace Worklist

variable {q : Inquiry} {depth : Nat} {links : List (Path × Verdict)} {p p' : Progress}
  {ts : List RefTree} {h : Halt}

/-! ## 1. One step -/

/-- The slots of the scheduled links, when the links start at slot `first`. -/
def waitingSlots (first : Nat) : List (Path × Verdict) → List Nat
  | [] => []
  | (_, v) :: rest =>
    if v = .scheduled then first :: waitingSlots (first + 1) rest else waitingSlots (first + 1) rest

/-- The part of a stack that is for the scheduled links, when the links start at slot `first`. -/
def stackOf (first depth : Nat) (links : List (Path × Verdict)) : List (Nat × Nat) :=
  (waitingSlots first links).map fun s => (s, depth)

@[simp] theorem stackOf_cons_node (first depth : Nat) (f : Path) (rest : List (Path × Verdict)) :
    stackOf first depth ((f, .scheduled) :: rest) =
      (first, depth) :: stackOf (first + 1) depth rest := by
  simp [stackOf, waitingSlots]

theorem stackOf_cons_leaf (first depth : Nat) {f : Path} {v : Verdict} (hv : v ≠ .scheduled)
    (rest : List (Path × Verdict)) :
    stackOf first depth ((f, v) :: rest) = stackOf (first + 1) depth rest := by
  simp [stackOf, waitingSlots, hv]

/-- Attaching in slots is attaching, with a new slot for each link. -/
theorem attachAll_eq (q : Inquiry) (parent depth : Nat) (found : List Path) (slots : Array Slot)
    (p : Progress) :
    attachAll q parent depth found slots p =
      (waitingSlots slots.size (q.attach depth found p).1,
        addSlots slots parent ((q.attach depth found p).1.map (·.1)),
        (q.attach depth found p).2) := by
  induction found generalizing slots p with
  | nil => rfl
  | cons f fs ih =>
    by_cases hfull : q.isFull p.stats = true
    · rw [attachAll, if_pos hfull, Inquiry.attach_full hfull]
      rfl
    · rw [Inquiry.attach_cons (by simpa using hfull), attachAll, if_neg hfull]
      simp only [ih, size_addSlot]
      rfl

/-- A step whose search is answered: the slot gets its links, and those that are scheduled come onto
the stack in its place. -/
theorem run_succ_ok {found : List Path} {p₂ : Progress} {slots : Array Slot} {id : Nat} {s : Slot}
    (hs : slots[id]? = some s) (opens : q.Opens (depth + 1) s.file found p links p₂)
    (waiting : List (Nat × Nat)) (fuel : Nat) :
    run q (fuel + 1) ⟨slots, (id, depth) :: waiting, p⟩ =
      run q fuel ⟨addSlots slots id (links.map (·.1)),
        stackOf slots.size (depth + 1) links ++ waiting, p₂⟩ := by
  have hfile : (slots.getD id default).file = s.file := by
    rw [Array.getD_eq_getD_getElem?, hs, Option.getD_some]
  obtain ⟨look, att⟩ := Inquiry.opens_iff.mp opens
  simp only [run, step, hfile, look, bind, Except.bind, attachAll_eq, att]
  rfl

theorem run_succ_error {e : EmptyTarget} {slots : Array Slot} {id : Nat} {s : Slot}
    (hs : slots[id]? = some s) (look : q.referrers s.file = .error e) (waiting : List (Nat × Nat))
    (fuel : Nat) :
    run q (fuel + 1) ⟨slots, (id, depth) :: waiting, p⟩ = .error ⟨e, p.lookups⟩ := by
  have hfile : (slots.getD id default).file = s.file := by
    rw [Array.getD_eq_getD_getElem?, hs, Option.getD_some]
  simp only [run, step, hfile, Inquiry.lookUp, look, bind, Except.bind]

theorem run_of_nothing_waits (q : Inquiry) (fuel : Nat) (slots : Array Slot) (p : Progress) :
    run q fuel ⟨slots, [], p⟩ = .ok ⟨slots, [], p⟩ := by
  cases fuel <;> rfl

/-! ## 2. A growth, in slots -/

/-- What a growth leaves in the slots: its trees from slot `first` on, and all slots that were there
before and are not its own as they were. -/
structure Grown (slots slots' : Array Slot) (first : Nat) (ts : List RefTree) : Prop where
  size : slots.size ≤ slots'.size
  holds : HoldsAll slots' slots.size ts first
  keeps : ∀ i s, i < first ∨ first + ts.length ≤ i → slots[i]? = some s → slots'[i]? = some s

/-- After a round of attaching for slot `first` and the growth of its links, the slot holds its tree,
and the row behind it is as it was. -/
theorem Grown.holds_node {slots slots' : Array Slot} {first : Nat} {f : Path} {fs : List Path}
    {ls : List RefTree} (hs : slots[first]? = some { file := f })
    (hg : Grown (addSlots slots first fs) slots' slots.size ls) (hlen : ls.length = fs.length) :
    Holds slots' slots.size (.node f ls) first ∧
      (∀ i s, i ≠ first → slots[i]? = some s → slots'[i]? = some s) := by
  have hlt : first < slots.size := (Array.getElem?_eq_some_iff.mp hs).1
  refine ⟨⟨slots.size, Nat.le_refl _, hlt, ?_, ?_⟩, fun i s hne hi => ?_⟩
  · refine hg.keeps first _ (Or.inl hlt) ?_
    rw [getElem?_addSlots_parent fs hs, hlen]
    rfl
  · refine HoldsAll.mono ?_ hg.holds
    rw [size_addSlots]
    omega
  · have hi' : i < slots.size := (Array.getElem?_eq_some_iff.mp hi).1
    exact hg.keeps i s (Or.inl hi') (getElem?_addSlots_old fs hne hi)

/-- A search and the round of attaching after it are one search more. -/
theorem lookups_length_step {f : Path} {found : List Path} {p₂ : Progress} {lookups : List Lookup}
    {n : Nat} (opens : q.Opens depth f found p links p₂)
    (hn : lookups.length = p₂.lookups.length + n) :
    lookups.length = p.lookups.length + (n + 1) := by
  have hl := congrArg List.length opens.attached.lookups
  simp only [Progress.lookedUp, List.length_cons] at hl
  omega

/-- **The worklist follows a growth.** It takes one step for each search, and then the stack is what
lay behind the scheduled links. -/
theorem run_grows (hg : q.Grows depth links p ts p') :
    ∀ {slots : Array Slot} {first : Nat} (waiting : List (Nat × Nat)),
      Row slots first (links.map (·.1)) →
      ∃ (slots' : Array Slot) (n : Nat), Grown slots slots' first ts ∧
        p'.lookups.length = p.lookups.length + n ∧
        ∀ fuel, run q (n + fuel) ⟨slots, stackOf first depth links ++ waiting, p⟩ =
          run q fuel ⟨slots', waiting, p'⟩ := by
  induction hg with
  | done =>
    intro slots first waiting _
    exact ⟨slots, 0, ⟨Nat.le_refl _, trivial, fun _ _ _ hs => hs⟩, rfl,
      fun fuel => by rw [Nat.zero_add]; rfl⟩
  | @leaf depth f v rest p p' ts hv _ ih =>
    intro slots first waiting hrow
    obtain ⟨slots', n, hgrown, hn, hrun⟩ := ih waiting hrow.2
    have hlt : first < slots.size := (Array.getElem?_eq_some_iff.mp hrow.1).1
    refine ⟨slots', n, ⟨hgrown.size, ⟨?_, hgrown.holds⟩, fun i s hi hs => ?_⟩, hn, ?_⟩
    · exact ⟨slots.size, Nat.le_refl _, hlt, hgrown.keeps _ _ (Or.inl (by omega)) hrow.1, trivial⟩
    · refine hgrown.keeps i s ?_ hs
      simp only [List.length_cons] at hi
      omega
    · rw [stackOf_cons_leaf first depth hv]
      exact hrun
  | @node depth f rest links found p p₂ p₃ p' ls ts opens below after ihb iha =>
    intro slots first waiting hrow
    have hlt : first < slots.size := (Array.getElem?_eq_some_iff.mp hrow.1).1
    have hsize : first + 1 + rest.length ≤ slots.size := by
      have := hrow.le_size
      simp only [List.length_cons, List.length_map] at this
      omega
    -- the round of attaching and the growth below it
    obtain ⟨slots₂, n₂, hg₂, hn₂, hrun₂⟩ :=
      ihb (stackOf (first + 1) depth rest ++ waiting) (row_addSlots (links.map (·.1)) hlt)
    obtain ⟨hnode, hkeep⟩ := hg₂.holds_node hrow.1 (by simpa using below.length_eq)
    have hsz₂ : slots.size ≤ slots₂.size := by
      have := hg₂.size
      rw [size_addSlots] at this
      omega
    -- the links that come after
    obtain ⟨slots₃, n₃, hg₃, hn₃, hrun₃⟩ :=
      iha waiting (hrow.2.congr fun i s hle _ hs => hkeep i s (by omega) hs)
    have habove : ∀ i s, slots.size ≤ i → slots₂[i]? = some s → slots₃[i]? = some s := by
      intro i s hi hs
      refine hg₃.keeps i s (Or.inr ?_) hs
      rw [after.length_eq]
      omega
    refine ⟨slots₃, n₂ + n₃ + 1, ⟨Nat.le_trans hsz₂ hg₃.size, ⟨?_, ?_⟩, fun i s hi hs => ?_⟩, ?_, ?_⟩
    · -- what comes after changes neither the slot nor anything that was added below it
      exact hnode.congr habove fun s hs => hg₃.keeps first s (Or.inl (by omega)) hs
    · exact hg₃.holds.mono hsz₂
    · simp only [List.length_cons] at hi
      exact hg₃.keeps i s (by omega) (hkeep i s (by omega) hs)
    · exact lookups_length_step opens (n := n₂ + n₃) (by omega)
    · intro fuel
      rw [stackOf_cons_node, show n₂ + n₃ + 1 + fuel = n₂ + (n₃ + fuel) + 1 by omega]
      rw [List.cons_append, run_succ_ok hrow.1 opens, hrun₂, hrun₃]

/-- **The worklist follows a halt.** The run fails with the error of the search that is not answered,
however much is left to do. -/
theorem run_halts (hh : q.Halts depth links p h) :
    ∀ {slots : Array Slot} {first : Nat} (waiting : List (Nat × Nat)),
      Row slots first (links.map (·.1)) →
      ∃ n, h.lookups.length = p.lookups.length + n ∧
        ∀ fuel, run q (n + fuel + 1) ⟨slots, stackOf first depth links ++ waiting, p⟩ = .error h := by
  induction hh with
  | here look =>
    intro slots first waiting hrow
    refine ⟨0, rfl, fun fuel => ?_⟩
    rw [stackOf_cons_node, List.cons_append]
    exact run_succ_error hrow.1 look _ _
  | @inside depth f rest links found p p₂ h opens _ ih =>
    intro slots first waiting hrow
    have hlt : first < slots.size := (Array.getElem?_eq_some_iff.mp hrow.1).1
    obtain ⟨n, hn, hrun⟩ :=
      ih (stackOf (first + 1) depth rest ++ waiting) (row_addSlots (links.map (·.1)) hlt)
    refine ⟨n + 1, lookups_length_step opens hn, fun fuel => ?_⟩
    rw [stackOf_cons_node, List.cons_append, run_succ_ok hrow.1 opens,
      show n + 1 + fuel = n + fuel + 1 by omega, hrun]
  | @afterLeaf depth f v rest p h hv _ ih =>
    intro slots first waiting hrow
    rw [stackOf_cons_leaf first depth hv]
    exact ih waiting hrow.2
  | @afterNode depth f rest links found p p₂ p₃ ls h opens below _ ih =>
    intro slots first waiting hrow
    have hlt : first < slots.size := (Array.getElem?_eq_some_iff.mp hrow.1).1
    obtain ⟨slots₂, n₂, hg₂, hn₂, hrun₂⟩ :=
      run_grows below (stackOf (first + 1) depth rest ++ waiting)
        (row_addSlots (links.map (·.1)) hlt)
    obtain ⟨-, hkeep⟩ := hg₂.holds_node hrow.1 (by simpa using below.length_eq)
    obtain ⟨n₃, hn₃, hrun₃⟩ :=
      ih waiting (hrow.2.congr fun i s hle _ hs => hkeep i s (by omega) hs)
    refine ⟨n₂ + n₃ + 1, ?_, fun fuel => ?_⟩
    · exact lookups_length_step opens (n := n₂ + n₃) (by omega)
    · rw [stackOf_cons_node, List.cons_append, run_succ_ok hrow.1 opens,
        show n₂ + n₃ + 1 + fuel = n₂ + (n₃ + fuel + 1) by omega, hrun₂, hrun₃]

/-! ## 3. From the root -/

theorem row_start (root : Path) (p : Progress) : Row (start root p).slots 0 [root] :=
  ⟨rfl, trivial⟩

end Worklist

namespace Inquiry

variable {q : Inquiry} {root : Path} {p p' : Progress} {ls : List RefTree} {h : Halt}

/-- The run takes a step for each search, and the steps that remain find nothing to do. -/
theorem run_start_of_grows (hg : q.Grows 0 [(root, .scheduled)] p [.node root ls] p') {fuel : Nat}
    (hfuel : p'.lookups.length ≤ p.lookups.length + fuel) :
    ∃ slots, Worklist.run q fuel (.start root p) = .ok ⟨slots, [], p'⟩ ∧
      Worklist.links ⟨slots, [], p'⟩ = ls := by
  obtain ⟨slots', n, hgrown, hn, hrun⟩ := Worklist.run_grows hg [] (Worklist.row_start root p)
  obtain ⟨k, rfl⟩ : ∃ k, fuel = n + k := ⟨fuel - n, by omega⟩
  refine ⟨slots', ?_, Worklist.links_of_holds hgrown.holds.1⟩
  rw [← Worklist.run_of_nothing_waits q k]
  exact hrun k

theorem expandRoot_of_grows (hg : q.Grows 0 [(root, .scheduled)] p [.node root ls] p') {fuel : Nat}
    (hfuel : p'.lookups.length ≤ p.lookups.length + fuel) :
    q.expandRoot fuel root p = .ok (ls, p') := by
  obtain ⟨slots, hrun, hlinks⟩ := run_start_of_grows hg hfuel
  simp only [expandRoot, hrun, bind, Except.bind, hlinks, pure, Except.pure]

theorem expandRoot_of_halts (hh : q.Halts 0 [(root, .scheduled)] p h) {fuel : Nat}
    (hfuel : h.lookups.length < p.lookups.length + fuel) :
    q.expandRoot fuel root p = .error h := by
  obtain ⟨n, hn, hrun⟩ := Worklist.run_halts hh [] (Worklist.row_start root p)
  obtain ⟨k, rfl⟩ : ∃ k, fuel = n + k + 1 := ⟨fuel - n - 1, by omega⟩
  have hrun' : Worklist.run q (n + k + 1) (.start root p) = .error h := hrun k
  simp only [expandRoot, hrun', bind, Except.bind]

end Inquiry
end Citator

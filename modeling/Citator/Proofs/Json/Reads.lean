import Citator.Json.Basic
import Citator.Json.Structure
import Citator.Proofs.Text.Utf8

/-!
# `Citator.Proofs.Json.Reads` — what a reading makes of a text

A reading moves a cursor, and a cursor knows its line and column. Of these only errors speak, so a
reading is described by the bytes in front of it. `Ends r bs o` says what comes of it: an answer and the
bytes that it leaves (`Reads`), or a problem (`Fails`). Whichever it is, a sequence of readings is
followed to its end by one rule: what comes of the whole comes of the rest, once the first is read.
-/

namespace Citator.Json.Reading

variable {α β : Type} {r : Reading α} {f : α → Reading β} {bs mid rest : Bytes} {a : α}
  {p : Problem} {u : UInt8}

/-! ## 1. Rules -/

/-- In front of these bytes the reading ends so, wherever the cursor stands. A problem has a place, so
that nothing around the reading places it again. -/
def Ends (r : Reading α) (bs : Bytes) : Except Problem (α × Bytes) → Prop
  | .ok (a, rest) => ∀ c : Cursor, c.rest = bs → ∃ c', r c = (.ok a, c') ∧ c'.rest = rest
  | .error p => ∀ c : Cursor, c.rest = bs → ∃ place c', r c = (.error ⟨p, some place⟩, c')

abbrev Reads (r : Reading α) (bs : Bytes) (a : α) (rest : Bytes) : Prop := Ends r bs (.ok (a, rest))

abbrev Fails (r : Reading α) (bs : Bytes) (p : Problem) : Prop := Ends r bs (.error p)

/-- How two readings in a row go, as an equation: the second starts where the first stopped, and is not
made if the first fails. All rules below come from it. -/
theorem bind_eq (r : Reading α) (f : α → Reading β) (c : Cursor) : (r >>= f) c =
    match r c with
    | (.ok a, c) => f a c
    | (.error e, c) => (.error e, c) := rfl

theorem reads_pure (a : α) (bs : Bytes) : Reads (pure a) bs a bs :=
  fun c hc => ⟨c, rfl, hc⟩

/-- The place of the problem is the byte that comes next, so it has one. -/
theorem fails_failAtNext (p : Problem) (bs : Bytes) : Fails (failAtNext p : Reading α) bs p :=
  fun c _ => ⟨_, c, rfl⟩

/-- A sequence is followed reading by reading: once the first has answered, what comes of the rest in
front of what is left is what comes of the whole. It is one rule for answers and problems, so no proof
about a text is made twice. -/
theorem Ends.bind {o : Except Problem (β × Bytes)} (h : Reads r bs a mid)
    (h' : Ends (f a) mid o) : Ends (r >>= f) bs o := by
  cases o with
  | ok answer =>
    intro c hc
    obtain ⟨c₁, hr, hmid⟩ := h c hc
    obtain ⟨c₂, hf, hrest⟩ := h' c₁ hmid
    refine ⟨c₂, ?_, hrest⟩
    rw [bind_eq, hr]
    exact hf
  | error p =>
    intro c hc
    obtain ⟨c₁, hr, hmid⟩ := h c hc
    obtain ⟨place, c₂, hf⟩ := h' c₁ hmid
    refine ⟨place, c₂, ?_⟩
    rw [bind_eq, hr]
    exact hf

/-- A problem ends a sequence. What would have come next is not looked at, and need not be known. -/
theorem Fails.bind (h : Fails r bs p) (f : α → Reading β) : Fails (r >>= f) bs p := by
  intro c hc
  obtain ⟨place, c', hr⟩ := h c hc
  refine ⟨place, c', ?_⟩
  rw [bind_eq, hr]

theorem Ends.bounded {r : Nat → Reading α} {o : Except Problem (α × Bytes)}
    (h : Ends (r (2 * bs.length + 2)) bs o) : Ends (Reading.bounded r) bs o := by
  cases o with
  | ok answer =>
    intro c hc
    rw [← hc] at h
    exact h c rfl
  | error p =>
    intro c hc
    rw [← hc] at h
    exact h c rfl

/-- A number of rounds that suffices may be exceeded. The rounds that a reading gives itself are twice
the bytes and two, so it is enough to show that a fixed number suffices and that it is not more than
that. -/
theorem Ends.bounded_of_le {r : Nat → Reading α} {o : Except Problem (α × Bytes)} (k : Nat)
    (h : ∀ n, Ends (r (n + k)) bs o) (hk : k ≤ 2 * bs.length + 2) :
    Ends (Reading.bounded r) bs o := by
  have hrounds := h (2 * bs.length + 2 - k)
  rw [Nat.sub_add_cancel hk] at hrounds
  exact hrounds.bounded

/-- Placing changes nothing here: answers have no place, and a problem that is described has one
already. -/
theorem Ends.placed {o : Except Problem (α × Bytes)} (h : Ends r bs o) :
    Ends (Reading.placed r) bs o := by
  cases o with
  | ok answer =>
    intro c hc
    obtain ⟨c', hr, hrest⟩ := h c hc
    refine ⟨c', ?_, hrest⟩
    unfold Reading.placed
    rw [hr]
  | error p =>
    intro c hc
    obtain ⟨place, c', hr⟩ := h c hc
    refine ⟨place, c', ?_⟩
    unfold Reading.placed
    rw [hr]

theorem Ends.closedBy {close : Reading Unit} (h : Reads r bs a mid) (h' : Reads close mid () rest) :
    Reads (Reading.closedBy r close) bs a rest := by
  intro c hc
  obtain ⟨c₁, hr, hmid⟩ := h c hc
  obtain ⟨c₂, hclose, hrest⟩ := h' c₁ hmid
  refine ⟨c₂, ?_, hrest⟩
  unfold Reading.closedBy
  simp only [hr, hclose]

/-- The closing is read behind a problem too, and moves the cursor on; it is the problem of the body
that stands. So nothing is asked of the closing. -/
theorem Fails.closedBy (h : Fails r bs p) (close : Reading Unit) :
    Fails (Reading.closedBy r close) bs p := by
  intro c hc
  obtain ⟨place, c', hr⟩ := h c hc
  refine ⟨place, (close c').2, ?_⟩
  unfold Reading.closedBy
  rw [hr]

/-! ## 2. Bytes -/

theorem rest_advance {c : Cursor} (hc : c.rest = u :: rest) : c.advance.rest = rest := by
  unfold Cursor.advance
  rw [hc]
  split
  · next h => exact absurd h (List.cons_ne_nil _ _)
  · next b bs h =>
    obtain ⟨rfl, rfl⟩ := List.cons.inj h
    split <;> rfl

theorem reads_peek (bs : Bytes) : Reads peek bs bs.head? bs := by
  intro c hc
  subst hc
  exact ⟨c, rfl, rfl⟩

theorem reads_skip (u : UInt8) (bs : Bytes) : Reads skip (u :: bs) () bs :=
  fun c hc => ⟨c.advance, rfl, rest_advance hc⟩

theorem reads_next (u : UInt8) (bs : Bytes) : Reads next (u :: bs) (some u) bs := by
  intro c hc
  refine ⟨c.advance, ?_, rest_advance hc⟩
  show (Except.ok c.rest.head?, c.advance) = _
  rw [hc, List.head?_cons]

/-- A span ends in front of a byte that is none of its own, and at the end of the text. -/
theorem reads_span_nil {q : UInt8 → Bool} (h : ∀ u ∈ bs.head?, q u = false) :
    Reads (span q) bs [] bs := by
  rintro ⟨cs, line, column⟩ hc
  obtain rfl : cs = bs := hc
  unfold span
  cases cs with
  | nil => exact ⟨_, rfl, rfl⟩
  | cons u us =>
    have hu : q u = false := h u rfl
    refine ⟨⟨u :: us, line, column⟩, ?_, rfl⟩
    simp [spanFrom, hu]

/-- Where no white space comes next, looking past it is looking. Nothing that is written starts with
white space, so nothing else is needed of it. -/
theorem reads_peekPastSpace (h : ∀ u ∈ bs.head?, isSpace u = false) :
    Reads peekPastSpace bs bs.head? bs :=
  (reads_span_nil h).bind (reads_peek bs)

theorem reads_peekPastSpace_cons (hu : isSpace u = false) :
    Reads peekPastSpace (u :: bs) (some u) (u :: bs) := by
  refine reads_peekPastSpace fun v hv => ?_
  obtain rfl := Option.some.inj hv
  exact hu

theorem reads_valueStart (hu : isSpace u = false) : Reads valueStart (u :: bs) u (u :: bs) := by
  unfold valueStart
  exact (reads_peekPastSpace_cons hu).bind (reads_pure u (u :: bs))

end Citator.Json.Reading

import Mathlib.Computability.Language
import Citator.Glob.Matching

/-!
# `Citator.Proofs.Glob.Language` — what a glob means

The matcher works on sets of places, all ways of reading a path at once. What it should decide is said
without places: a token stands for a language, the strings of bytes that it can take; tokens in a row
stand for the product of their languages and a choice for the sum of its branches (`Token.lang`,
`seqLang`, `branchesLang`).

The two meet in `Moves`. A function on places moves by a language if the places it reaches are those to
which a string of the language leads from a place that was there before. Doing one after the other moves
by the product and joining the results moves by the sum, so the cases of the matcher follow those of the
language one by one (`moves_past`). A glob is tried from the front of the path, where one place is all
there is, so it matches just the strings of its language (`matchesTokens_iff`).
-/

namespace Citator.Glob

variable {inSegment : Bool} {p : UInt8 → Bool} {a b s u w : Bytes} {m n : Places}
  {l l' : Language UInt8} {f g : Places → Places}

/-! ## 1. Languages -/

/-- The strings of one byte that satisfies `p`. -/
def oneByte (p : UInt8 → Bool) : Language UInt8 := {w | ∃ c, p c = true ∧ w = [c]}

/-- The strings of any length whose bytes satisfy `p`. -/
def manyBytes (p : UInt8 → Bool) : Language UInt8 := {w | ∀ c ∈ w, p c = true}

/-- Whole directories: nothing, or anything that ends with a separator. -/
def wholeDirs : Language UInt8 := 1 + manyBytes (fun _ => true) * oneByte isSeparator

mutual

/-- What a token stands for. -/
def Token.lang (inSegment : Bool) : Token → Language UInt8
  | .literal c => {String.utf8EncodeChar c}
  | .anyByte => oneByte fun b => !(inSegment && isSeparator b)
  | .anyRun => manyBytes fun b => !(inSegment && isSeparator b)
  | .leadingDirs => wholeDirs
  | .trailingDirs => oneByte isSeparator * manyBytes fun _ => true
  | .innerDirs => oneByte isSeparator * wholeDirs
  | .oneOf negated ranges => oneByte (classHolds negated ranges)
  | .choice bs => if allVoid bs then 1 else branchesLang inSegment bs

/-- What the branches of a choice stand for. -/
def branchesLang (inSegment : Bool) : List (List Token) → Language UInt8
  | [] => 0
  | b :: bs => (if voidBranch b then 0 else seqLang inSegment b) + branchesLang inSegment bs

/-- What tokens in a row stand for. -/
def seqLang (inSegment : Bool) : List Token → Language UInt8
  | [] => 1
  | t :: ts => t.lang inSegment * seqLang inSegment ts

end

theorem nil_mem_manyBytes : [] ∈ manyBytes p := fun _ h => absurd h List.not_mem_nil

theorem mem_manyBytes_cons {c : UInt8} : c :: w ∈ manyBytes p ↔ p c = true ∧ w ∈ manyBytes p :=
  List.forall_mem_cons

/-- What a fixed string in front leaves is the rest of the word. Products in which the first factor is
a single string come from literals. -/
theorem mem_singleton_mul : w ∈ {u} * l ↔ ∃ v ∈ l, w = u ++ v := by
  rw [Language.mem_mul]
  constructor
  · rintro ⟨_, rfl, v, hv, rfl⟩
    exact ⟨v, hv, rfl⟩
  · rintro ⟨v, hv, rfl⟩
    exact ⟨u, rfl, v, hv, rfl⟩

/-- A string is one of a choice if it is one of a branch. Void branches are no branches, though the
sequence of no tokens stands for the empty string. -/
theorem mem_branchesLang_iff (inSegment : Bool) (bs : List (List Token)) :
    w ∈ branchesLang inSegment bs ↔ ∃ b ∈ bs, voidBranch b = false ∧ w ∈ seqLang inSegment b := by
  induction bs with
  | nil => simp [branchesLang]
  | cons b bs ih =>
    rw [branchesLang, Language.mem_add, ih, List.exists_mem_cons_iff]
    refine or_congr ?_ Iff.rfl
    cases voidBranch b <;> simp

/-! ## 2. Moving by a language -/

/-- Whether the place behind `u` is in the set. -/
def Places.behind (m : Places) (u : Bytes) : Bool := m.getD u.length false

/-- The places that `f` gives are those to which a string of `l` leads from a place that was given. The
string is a piece of `s`, so only places behind a front part of `s` are asked about. -/
structure Moves (s : Bytes) (l : Language UInt8) (f : Places → Places) : Prop where
  length_eq : ∀ m : Places, m.length = s.length + 1 → (f m).length = s.length + 1
  behind_iff : ∀ m : Places, m.length = s.length + 1 → ∀ u, u <+: s →
    ((f m).behind u = true ↔ ∃ a w, a ++ w = u ∧ m.behind a = true ∧ w ∈ l)

/-- There is a place behind every front part of the string, the whole string included: there is one
place more than there are bytes. -/
theorem length_lt_of_prefix (hm : m.length = s.length + 1) (hu : u <+: s) : u.length < m.length := by
  rw [hm]
  exact Nat.lt_succ_of_le hu.length_le

theorem behind_eq_getElem (h : u.length < m.length) : m.behind u = m[u.length] :=
  (List.getElem_eq_getD false).symm

/-- Joining two sets of places is done place by place, so a place is in the join if it is in one of
them. Both need the length that belongs to the string, since the shorter one would cut the other off.
-/
theorem behind_either (hm : m.length = s.length + 1) (hn : n.length = s.length + 1) (hu : u <+: s) :
    (m.either n).behind u = (m.behind u || n.behind u) := by
  have hm' := length_lt_of_prefix hm hu
  have hn' := length_lt_of_prefix hn hu
  have hlt : u.length < (m.either n).length := by
    rw [Places.either, List.length_zipWith]
    exact Nat.lt_min.mpr ⟨hm', hn'⟩
  rw [behind_eq_getElem hlt, behind_eq_getElem hm', behind_eq_getElem hn']
  exact List.getElem_zipWith

theorem behind_none (s u : Bytes) : (Places.none s).behind u = false := by
  have hnone : Places.none s = List.replicate (s.length + 1) false := by
    rw [Places.none, List.map_const', List.replicate_succ]
  rw [hnone, Places.behind, List.getD_eq_getElem?_getD, List.getElem?_replicate]
  split <;> rfl

theorem length_front (s : Bytes) : (Places.front s).length = s.length + 1 := by
  rw [Places.front, List.length_cons, List.length_map]

theorem behind_front_iff (s u : Bytes) : (Places.front s).behind u = true ↔ u = [] := by
  cases u with
  | nil => simp [Places.front, Places.behind]
  | cons c u =>
    have hnone := behind_none s (c :: u)
    rw [Places.none, Places.behind, List.length_cons, List.getD_cons_succ] at hnone
    rw [Places.front, Places.behind, List.length_cons, List.getD_cons_succ, hnone]
    simp

theorem moves_id (s : Bytes) : Moves s 1 id := by
  refine ⟨fun m hm => hm, fun m hm u hu => ?_⟩
  constructor
  · intro h
    exact ⟨u, [], List.append_nil u, h, rfl⟩
  · rintro ⟨a, w, rfl, h, rfl⟩
    rwa [List.append_nil]

/-- To lose all places is to move by no string at all. That is what the matcher does with void
branches. -/
theorem moves_none (s : Bytes) : Moves s 0 fun _ => .none s := by
  refine ⟨fun m hm => by simp [Places.none], fun m hm u hu => ?_⟩
  constructor
  · intro h
    rw [behind_none] at h
    exact absurd h (by simp)
  · rintro ⟨a, w, -, -, hw⟩
    exact absurd hw (Language.notMem_zero w)

/-- **Moves one after the other are products.** A place that is reached in two moves was reached from a
place between them, and the two strings in a row lead there. That place stands behind a front part of
the string as well, so the first move can be asked about it. -/
theorem Moves.comp (hf : Moves s l f) (hg : Moves s l' g) : Moves s (l * l') fun m => g (f m) := by
  refine ⟨fun m hm => hg.length_eq _ (hf.length_eq m hm), fun m hm u hu => ?_⟩
  rw [hg.behind_iff _ (hf.length_eq m hm) u hu]
  constructor
  · rintro ⟨a, w', rfl, ha, hw'⟩
    rw [hf.behind_iff m hm a ((List.prefix_append a w').trans hu)] at ha
    obtain ⟨a, w, rfl, ha, hw⟩ := ha
    exact ⟨a, w ++ w', (List.append_assoc a w w').symm, ha, Language.append_mem_mul hw hw'⟩
  · rintro ⟨a, v, rfl, ha, hv⟩
    obtain ⟨w, hw, w', hw', rfl⟩ := Language.mem_mul.mp hv
    refine ⟨a ++ w, w', List.append_assoc a w w', ?_, hw'⟩
    rw [← List.append_assoc] at hu
    rw [hf.behind_iff m hm _ ((List.prefix_append _ w').trans hu)]
    exact ⟨a, w, rfl, ha, hw⟩

/-- **Moves beside each other are sums.** A place is reached by either of them if it is reached by one,
from the same places. -/
theorem Moves.either (hf : Moves s l f) (hg : Moves s l' g) :
    Moves s (l + l') fun m => (f m).either (g m) := by
  refine ⟨fun m hm => ?_, fun m hm u hu => ?_⟩
  · rw [Places.either, List.length_zipWith, hf.length_eq m hm, hg.length_eq m hm, Nat.min_self]
  · rw [behind_either (hf.length_eq m hm) (hg.length_eq m hm) hu, Bool.or_eq_true,
      hf.behind_iff m hm u hu, hg.behind_iff m hm u hu]
    constructor
    · rintro (⟨a, w, hu, ha, hw⟩ | ⟨a, w, hu, ha, hw⟩)
      · exact ⟨a, w, hu, ha, Or.inl hw⟩
      · exact ⟨a, w, hu, ha, Or.inr hw⟩
    · rintro ⟨a, w, hu, ha, hw | hw⟩
      · exact Or.inl ⟨a, w, hu, ha, hw⟩
      · exact Or.inr ⟨a, w, hu, ha, hw⟩

/-! ## 3. The steps of the matcher -/

/-- Past one byte every place moves on by one, if the byte there satisfies `p`; so the place behind `a`
and `c` is reached from the one behind `a`. -/
theorem behind_pastByte_concat {c : UInt8} (hm : m.length = s.length + 1) (h : a ++ [c] <+: s) :
    (pastByte p s m).behind (a ++ [c]) = (m.behind a && p c) := by
  have ha : a.length < m.length := length_lt_of_prefix hm ((List.prefix_append a [c]).trans h)
  have hlt : (a ++ [c]).length < (pastByte p s m).length := by
    have hle := h.length_le
    rw [pastByte, List.length_cons, List.length_zipWith, hm]
    omega
  obtain ⟨rest, rfl⟩ := h
  rw [behind_eq_getElem ha, behind_eq_getElem hlt]
  simp [pastByte]

/-- The place behind nothing is reached by no byte. Every other one is behind some `c`, and was reached
from the place before that. -/
theorem moves_pastByte (p : UInt8 → Bool) (s : Bytes) : Moves s (oneByte p) (pastByte p s) := by
  refine ⟨fun m hm => ?_, fun m hm u hu => ?_⟩
  · rw [pastByte, List.length_cons, List.length_zipWith, hm]
    simp
  · rcases List.eq_nil_or_concat' u with rfl | ⟨a, c, rfl⟩
    · constructor
      · intro h
        exact absurd h (by simp [pastByte, Places.behind])
      · rintro ⟨a, w, hnil, -, c, -, rfl⟩
        simp at hnil
    · rw [behind_pastByte_concat hm hu, Bool.and_eq_true]
      constructor
      · rintro ⟨ha, hc⟩
        exact ⟨a, [c], rfl, ha, c, hc, rfl⟩
      · rintro ⟨a', w, happend, ha', c', hc', rfl⟩
        obtain ⟨rfl, hcc⟩ := List.append_inj' happend rfl
        rw [List.cons.injEq] at hcc
        exact ⟨ha', hcc.1 ▸ hc'⟩

theorem singleton_cons (c : UInt8) (w : Bytes) :
    ({c :: w} : Language UInt8) = oneByte (· == c) * {w} := by
  ext v
  rw [Language.mem_mul]
  constructor
  · rintro rfl
    exact ⟨[c], ⟨c, by simp, rfl⟩, w, rfl, rfl⟩
  · rintro ⟨_, ⟨d, hd, rfl⟩, _, rfl, rfl⟩
    rw [beq_iff_eq] at hd
    rw [hd]
    rfl

theorem moves_pastBytes (literal s : Bytes) : Moves s {literal} (pastBytes literal s) := by
  induction literal with
  | nil => exact moves_id s
  | cons c literal ih =>
    rw [singleton_cons]
    exact (moves_pastByte (· == c) s).comp ih

theorem behind_cons_cons (here : Bool) (m : Places) (c : UInt8) (u : Bytes) :
    Places.behind (here :: m) (c :: u) = Places.behind m u := rfl

theorem pastRunFrom_cons (p : UInt8 → Bool) (reached here : Bool) (c : UInt8) (s : Bytes) (m : Places) :
    pastRunFrom p reached (c :: s) (here :: m) =
      (reached || here) :: pastRunFrom p ((reached || here) && p c) s m := rfl

/-- A run that ends behind `c` and `u` began at the first place, or at one behind it. -/
theorem exists_run_cons_iff {here : Bool} {c : UInt8} :
    (∃ a w, a ++ w = c :: u ∧ Places.behind (here :: m) a = true ∧ w ∈ manyBytes p) ↔
      (here = true ∧ c :: u ∈ manyBytes p) ∨
        ∃ a w, a ++ w = u ∧ m.behind a = true ∧ w ∈ manyBytes p := by
  constructor
  · rintro ⟨a, w, happend, ha, hw⟩
    cases a with
    | nil =>
      obtain rfl : w = c :: u := happend
      exact Or.inl ⟨ha, hw⟩
    | cons d a => exact Or.inr ⟨a, w, (List.cons.inj happend).2, ha, hw⟩
  · rintro (⟨h, hw⟩ | ⟨a, w, rfl, ha, hw⟩)
    · exact ⟨[], c :: u, rfl, h, hw⟩
    · exact ⟨c :: a, w, rfl, ha, hw⟩

theorem behind_pastRunFrom_nil (p : UInt8 → Bool) (reached here : Bool) (s : Bytes) (m : Places) :
    (pastRunFrom p reached s (here :: m)).behind [] = (reached || here) := by
  cases s <;> rfl

/-- A run that ends behind `u` is the one that leads up to the first place, or it began at a place. -/
theorem behind_pastRunFrom (p : UInt8 → Bool) (s : Bytes) (m : Places) (reached : Bool) (u : Bytes)
    (hm : m.length = s.length + 1) (hu : u <+: s) : (pastRunFrom p reached s m).behind u = true ↔
      (reached = true ∧ u ∈ manyBytes p) ∨
        ∃ a w, a ++ w = u ∧ m.behind a = true ∧ w ∈ manyBytes p := by
  obtain ⟨here, m, rfl⟩ := List.exists_cons_of_length_eq_add_one hm
  -- along the bytes up to the place; `reached` is what the invariant carries from one to the next
  induction u generalizing s m reached here with
  | nil =>
    rw [behind_pastRunFrom_nil, Bool.or_eq_true]
    constructor
    · rintro (h | h)
      · exact Or.inl ⟨h, nil_mem_manyBytes⟩
      · exact Or.inr ⟨[], [], rfl, h, nil_mem_manyBytes⟩
    · rintro (⟨h, -⟩ | ⟨a, w, hnil, h, -⟩)
      · exact Or.inl h
      · obtain ⟨rfl, -⟩ := List.append_eq_nil_iff.mp hnil
        exact Or.inr h
  | cons c u ih =>
    obtain ⟨s, rfl⟩ : ∃ s', s = c :: s' := by
      obtain ⟨rest, rfl⟩ := hu
      exact ⟨u ++ rest, rfl⟩
    have hm' : m.length = s.length + 1 := by simpa using hm
    obtain ⟨next, m, rfl⟩ := List.exists_cons_of_length_eq_add_one hm'
    rw [pastRunFrom_cons, behind_cons_cons, exists_run_cons_iff, mem_manyBytes_cons,
      ih s _ (List.cons_prefix_cons.mp hu).2 next m hm', Bool.and_eq_true, Bool.or_eq_true, and_assoc,
      or_and_right, or_assoc]

/-- A run gives an answer for every place. The recursion goes along the string and the places together,
and ends where both do. -/
theorem length_pastRunFrom (p : UInt8 → Bool) : ∀ (s : Bytes) (m : Places) (reached : Bool),
    m.length = s.length + 1 → (pastRunFrom p reached s m).length = s.length + 1
  | _, [], _, hm => by simp at hm
  | [], _ :: _, _, _ => rfl
  | _ :: s, _ :: m, _, hm => by
    rw [pastRunFrom, List.length_cons, List.length_cons, length_pastRunFrom p s m _ (by simpa using hm)]

/-- Nothing was reached before the first place, so a run that ends somewhere began at a place that was
given. -/
theorem moves_pastRun (p : UInt8 → Bool) (s : Bytes) : Moves s (manyBytes p) (pastRun p s) := by
  refine ⟨fun m hm => length_pastRunFrom p s m false hm, fun m hm u hu => ?_⟩
  rw [pastRun, behind_pastRunFrom p s m false u hm hu]
  simp

theorem moves_pastDirs (s : Bytes) : Moves s wholeDirs (pastDirs s) :=
  (moves_id s).either ((moves_pastRun _ s).comp (moves_pastByte isSeparator s))

mutual

/-- **A token moves by its language.** The cases are those of the language: each kind of token is a
run, a byte or a product of them, and a choice is a sum of sequences. A choice that is void is passed
over, and stands for the empty string. -/
theorem moves_past (inSegment : Bool) (s : Bytes) :
    ∀ t : Token, Moves s (t.lang inSegment) (t.past inSegment s)
  | .literal c => moves_pastBytes _ s
  | .anyByte => moves_pastByte _ s
  | .anyRun => moves_pastRun _ s
  | .leadingDirs => moves_pastDirs s
  | .trailingDirs => (moves_pastByte _ s).comp (moves_pastRun _ s)
  | .innerDirs => (moves_pastByte _ s).comp (moves_pastDirs s)
  | .oneOf negated ranges => moves_pastByte _ s
  | .choice bs => by
    have hbs := moves_branchesPast inSegment s bs
    show Moves s (if allVoid bs then 1 else branchesLang inSegment bs)
      fun m => if allVoid bs then m else branchesPast inSegment s bs m
    split
    · exact moves_id s
    · exact hbs

/-- The sum goes along the branches. A void one is left out on both sides, so that here too it is none.
-/
theorem moves_branchesPast (inSegment : Bool) (s : Bytes) :
    ∀ bs : List (List Token), Moves s (branchesLang inSegment bs) (branchesPast inSegment s bs)
  | [] => moves_none s
  | b :: bs => by
    have hb := moves_seqPast inSegment s b
    have hbs := moves_branchesPast inSegment s bs
    refine Moves.either (l := if voidBranch b then 0 else seqLang inSegment b)
      (f := fun m => if voidBranch b then .none s else seqPast inSegment s b m) ?_ hbs
    split
    · exact moves_none s
    · exact hb

theorem moves_seqPast (inSegment : Bool) (s : Bytes) :
    ∀ ts : List Token, Moves s (seqLang inSegment ts) (seqPast inSegment s ts)
  | [] => moves_id s
  | t :: ts => (moves_past inSegment s t).comp (moves_seqPast inSegment s ts)

end

/-! ## 4. What matching decides -/

theorem getLast?_eq_some_true_iff (hm : m.length = s.length + 1) :
    (m.getLast? == some true) = true ↔ m.behind s = true := by
  have hlt : s.length < m.length := length_lt_of_prefix hm (List.prefix_refl s)
  have hlast : m.getLast? = some m[s.length] := by
    rw [List.getLast?_eq_getElem?, hm, Nat.add_sub_cancel, List.getElem?_eq_getElem hlt]
  rw [hlast, behind_eq_getElem hlt, beq_iff_eq, Option.some.injEq]

/-- From the front of a string, the place behind it is reached by the string alone. -/
theorem behind_seqPast_iff (inSegment : Bool) (ts : List Token) (s : Bytes) :
    (seqPast inSegment s ts (.front s)).behind s = true ↔ s ∈ seqLang inSegment ts := by
  rw [(moves_seqPast inSegment s ts).behind_iff _ (length_front s) s (List.prefix_refl s)]
  constructor
  · rintro ⟨a, w, happend, ha, hw⟩
    obtain rfl := (behind_front_iff s a).mp ha
    obtain rfl : w = s := happend
    exact hw
  · intro hs
    exact ⟨[], s, rfl, (behind_front_iff s []).mpr rfl, hs⟩

/-- **A glob matches the strings of its language**, and everything if it is `**` alone. -/
theorem matchesTokens_iff (inSegment : Bool) (ts : List Token) (s : Bytes) :
    matchesTokens inSegment ts s = true ↔ ts = [.leadingDirs] ∨ s ∈ seqLang inSegment ts := by
  have hlength := (moves_seqPast inSegment s ts).length_eq _ (length_front s)
  unfold matchesTokens
  split
  · simp
  · next hne =>
    rw [getLast?_eq_some_true_iff hlength, behind_seqPast_iff, or_iff_right]
    exact fun h => hne h

end Citator.Glob

namespace Citator

theorem Glob.isMatch_iff (g : Glob) (p : Path) : g.isMatch p = true ↔
    g.tokens = [.leadingDirs] ∨ p.bytes ∈ Glob.seqLang g.inSegment g.tokens :=
  Glob.matchesTokens_iff g.inSegment g.tokens p.bytes

end Citator

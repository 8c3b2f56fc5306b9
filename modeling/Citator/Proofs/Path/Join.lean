import Citator.Path.Relative

/-!
# `Citator.Proofs.Path.Join` — what joining does to components

A path divides into a special first component and segments, and which segments those are depends on
the first component. `components_eq` removes the dependence: an absolute path starts with an empty
segment and a `.` in front is a segment too, and neither stands for a component, so *all* segments may
be taken. Since joining is appending segments, everything about joined paths follows from that.
-/

namespace Citator.Path

/-! ## 1. Components, from all segments -/

def first? (p : Path) : Option Component :=
  if p.isAbsolute then some .root
  else if (segments p.bytes).head? = some [dot] then some .current
  else none

def ordinary (p : Path) : List Component := (segments p.bytes).filterMap Component.ofSegment?

theorem first?_cases (p : Path) :
    p.first? = none ∨ p.first? = some .root ∨ p.first? = some .current := by
  unfold first?
  split
  · exact Or.inr (Or.inl rfl)
  · split
    · exact Or.inr (Or.inr rfl)
    · exact Or.inl rfl

/-- The first component is never a name: a name comes from a segment. -/
theorem first?_ne_name (p : Path) (n : Bytes) : p.first? ≠ some (.name n) := by
  rcases p.first?_cases with hnone | hroot | hcurrent
  · simp [hnone]
  · simp [hroot]
  · simp [hcurrent]

theorem segments_cons_slash (bs : Bytes) : segments (slash :: bs) = [] :: segments bs :=
  List.splitOn_append_cons_self [] bs

theorem segments_of_isAbsolute {p : Path} (h : p.isAbsolute = true) :
    ∃ bs, p.bytes = slash :: bs ∧ segments p.bytes = [] :: segments bs := by
  unfold isAbsolute at h
  cases hb : p.bytes with
  | nil => simp [hb] at h
  | cons b bs =>
    have hslash : b = slash := by simpa [hb] using h
    subst hslash
    exact ⟨bs, rfl, segments_cons_slash bs⟩

/-- Whatever the first component is, all segments may be taken: an absolute path starts with an empty
segment, and a `.` in front is a segment that stands for nothing. -/
theorem components_eq (p : Path) : p.components = p.first?.toList ++ p.ordinary := by
  unfold components lead first? ordinary
  by_cases habs : p.isAbsolute = true
  · obtain ⟨bs, -, hs⟩ := segments_of_isAbsolute habs
    rw [hs]
    simp [habs, Component.ofSegment?]
  · cases hs : segments p.bytes with
    | nil => exact absurd hs (List.splitOn_ne_nil slash _)
    | cons s ss =>
      simp only [habs, Bool.false_eq_true, if_false, List.head?_cons, Option.some.injEq]
      -- a `.` in front is a component of its own, which as a segment it would not be
      by_cases hdot : s = [dot]
      · subst hdot
        simp [Component.ofSegment?]
      · simp [hdot]

theorem ofSegment?_ne_root {s : Bytes} : Component.ofSegment? s ≠ some .root := by
  unfold Component.ofSegment?
  split
  · simp
  · split <;> simp

theorem root_not_mem_ordinary (p : Path) : Component.root ∉ p.ordinary := by
  intro h
  obtain ⟨s, _, hs⟩ := List.mem_filterMap.mp h
  exact ofSegment?_ne_root hs

theorem isAbsolute_iff_root_mem (p : Path) : p.isAbsolute = true ↔ Component.root ∈ p.components := by
  rw [components_eq, List.mem_append, or_iff_left (root_not_mem_ordinary p)]
  unfold first?
  split
  · next h => simp [h]
  · next h => split <;> simp [h]

theorem Same.isAbsolute_eq {p q : Path} (h : p.Same q) : p.isAbsolute = q.isAbsolute := by
  rw [Bool.eq_iff_iff, isAbsolute_iff_root_mem, isAbsolute_iff_root_mem, h]

/-! ## 2. Joined paths -/

theorem segments_append_slash (as bs : Bytes) :
    segments (as ++ slash :: bs) = segments as ++ segments bs :=
  List.splitOn_append_cons_self as bs

theorem isAbsolute_join {p : Path} (h : p.isAbsolute = true) (q : Path) :
    (p.join q).isAbsolute = true := by
  unfold join
  obtain ⟨bs, hb, -⟩ := segments_of_isAbsolute h
  split
  · next hq => exact hq
  · split <;> simp [isAbsolute, hb]

/-- The ordinary components of a relative path come last when it is joined to another path. -/
theorem ordinary_join {p q : Path} (hq : q.isAbsolute = false) :
    (p.join q).ordinary = p.ordinary ++ q.ordinary := by
  unfold join ordinary
  rw [if_neg (by simp [hq])]
  split
  · next h =>
    -- nothing is put between: the first path is empty, or ends with a separator
    rcases h with h | h
    · simp [h, segments, Component.ofSegment?]
    · obtain ⟨as, ha⟩ := List.getLast?_eq_some_iff.mp h
      have hlast : segments (as ++ [slash]) = segments as ++ segments [] :=
        segments_append_slash as []
      rw [ha, List.append_assoc, List.singleton_append, segments_append_slash, hlast]
      simp [segments, Component.ofSegment?]
  · rw [segments_append_slash, List.filterMap_append]

/-- What stands behind a separator does not change the first segment. -/
theorem head?_segments_append_slash (as bs : Bytes) :
    (segments (as ++ slash :: bs)).head? = (segments as).head? := by
  obtain ⟨s, ss, hs⟩ := List.exists_cons_of_ne_nil (List.splitOn_ne_nil slash as)
  rw [segments_append_slash, segments, hs]
  rfl

theorem first?_join {p q : Path} (hp : p.bytes ≠ []) (hq : q.isAbsolute = false) :
    (p.join q).first? = p.first? := by
  obtain ⟨rest, hbytes, hhead⟩ : ∃ rest, (p.join q).bytes = p.bytes ++ rest ∧
      (segments (p.bytes ++ rest)).head? = (segments p.bytes).head? := by
    unfold join
    rw [if_neg (by simp [hq])]
    split
    · next h =>
      obtain ⟨as, has⟩ := List.getLast?_eq_some_iff.mp (h.resolve_left hp)
      refine ⟨q.bytes, rfl, ?_⟩
      rw [has, List.append_assoc, List.singleton_append, head?_segments_append_slash,
        head?_segments_append_slash]
    · exact ⟨slash :: q.bytes, rfl, head?_segments_append_slash _ _⟩
  have habs : (p.join q).isAbsolute = p.isAbsolute := by
    obtain ⟨b, bs, hb⟩ := List.exists_cons_of_ne_nil hp
    rw [isAbsolute, isAbsolute, hbytes, hb]
    rfl
  rw [first?, first?, habs, hbytes, hhead]

/-- The components of a path that has no special first one come last when it is joined to another. -/
theorem components_join {p q : Path} (hp : p.bytes ≠ []) (hq : q.first? = none) :
    (p.join q).components = p.components ++ q.components := by
  have hrel : q.isAbsolute = false := by
    cases habs : q.isAbsolute with
    | false => rfl
    | true => simp [first?, habs] at hq
  rw [components_eq, first?_join hp hrel, ordinary_join hrel, components_eq p, components_eq q, hq,
    List.append_assoc]
  rfl

/-! ## 3. File names -/

/-- The file name is the last component, if that is a name. The special first one never is. -/
theorem fileName?_eq (p : Path) :
    p.fileName? = match p.ordinary.getLast? with
      | some (.name n) => some n
      | _ => none := by
  unfold fileName?
  rw [components_eq, List.getLast?_append]
  cases hl : p.ordinary.getLast? with
  | some c => rfl
  | none =>
    rcases p.first?_cases with h | h | h <;> rw [h] <;> rfl

theorem Same.fileName?_eq {p q : Path} (h : p.Same q) : p.fileName? = q.fileName? := by
  unfold fileName?
  rw [h]

/-- A path that has a file name keeps it when it is joined to another. -/
theorem fileName?_join {p q : Path} {n : Bytes} (h : q.fileName? = some n) :
    (p.join q).fileName? = some n := by
  by_cases hq : q.isAbsolute = true
  · rw [join, if_pos hq]
    exact h
  · rw [fileName?_eq] at h ⊢
    rw [ordinary_join (by simpa using hq), List.getLast?_append]
    cases hl : q.ordinary.getLast? with
    | none => simp [hl] at h
    | some c => simpa [hl] using h

end Citator.Path

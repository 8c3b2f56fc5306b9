import Citator.Proofs.Path.Strip

/-!
# `Citator.Proofs.Path.Display` — a shown path tells which file it is

A path is shown without its base, and the trivial segments at either end of what is left go too, so the
text that is shown is not the text of the path. It still tells what the path names, since removing a
base removes *components*: those of the base and those of what is left are, one after the other, those
of the path (`components_of_strip?`).

So two paths that are shown alike are the same. Either the base was removed from both, and the same
components came after it; or from neither, and then the texts are equal; or from one of them, and then
what is left of it is absolute. The last cannot be unless the base is empty, for a root stands nowhere but
in front.
-/

namespace Citator.Path

open Text (dropEndWhile not_of_head?_dropEndWhile)

variable {p q b rest : Path} {base : Option Path} {ss : List Bytes} {cs ds : List Component}

/-! ## 1. The components that are left -/

theorem filterMap_dropWhile_isTrivial (ss : List Bytes) :
    (ss.dropWhile isTrivial).filterMap Component.ofSegment? = ss.filterMap Component.ofSegment? := by
  induction ss with
  | nil => rfl
  | cons s ss ih =>
    cases hs : Component.ofSegment? s with
    | none =>
      have htrivial : isTrivial s = true := by simp [isTrivial, hs]
      rw [List.dropWhile_cons_of_pos htrivial, List.filterMap_cons_none hs, ih]
    | some c =>
      have hcounts : ¬ isTrivial s = true := by simp [isTrivial, hs]
      rw [List.dropWhile_cons_of_neg hcounts]

/-- Segments that are dropped at the end stand for no component, so none is lost. -/
theorem filterMap_dropEndWhile_isTrivial (ss : List Bytes) :
    (dropEndWhile isTrivial ss).filterMap Component.ofSegment? = ss.filterMap Component.ofSegment? := by
  rw [dropEndWhile, List.filterMap_reverse, filterMap_dropWhile_isTrivial, List.filterMap_reverse,
    List.reverse_reverse]

theorem filterMap_of_afterComponents? : ∀ (cs : List Component) (ss : List Bytes) {left : List Bytes},
    afterComponents? cs ss = some left →
      ss.filterMap Component.ofSegment? = cs ++ left.filterMap Component.ofSegment?
  | [], ss, left, h => by
    rw [afterComponents?, Option.some.injEq] at h
    rw [h, List.nil_append]
  | _ :: _, [], _, h => by simp [afterComponents?] at h
  | c :: cs, s :: ss, left, h => by
    rw [afterComponents?] at h
    split at h
    · next hs =>
      rw [List.filterMap_cons_none hs]
      exact filterMap_of_afterComponents? _ ss h
    · next d hs =>
      split at h
      · next hcd =>
        rw [List.filterMap_cons_some hs, hcd, filterMap_of_afterComponents? cs ss h, List.cons_append]
      · exact absurd h (by simp)

/-- If the segments stand for the components and more, they can be passed over. Trivial segments
between them do not get in the way. -/
theorem exists_afterComponents? : ∀ (cs : List Component) (ss : List Bytes),
    ss.filterMap Component.ofSegment? = cs ++ ds → ∃ left, afterComponents? cs ss = some left
  | [], ss, _ => ⟨ss, by rw [afterComponents?]⟩
  | _ :: _, [], h => by simp at h
  | c :: cs, s :: ss, h => by
    rw [afterComponents?]
    cases hs : Component.ofSegment? s with
    | none =>
      rw [List.filterMap_cons_none hs] at h
      exact exists_afterComponents? _ ss h
    | some d =>
      rw [List.filterMap_cons_some hs, List.cons_append] at h
      obtain ⟨rfl, hrest⟩ := List.cons.inj h
      obtain ⟨left, hleft⟩ := exists_afterComponents? cs ss hrest
      exact ⟨left, by simp [hleft]⟩

/-- Segments that begin with one that counts, put together, stand for a relative path. -/
theorem components_unite (h : ∀ s ∈ ss, slash ∉ s)
    (hfirst : ∀ s, ss.head? = some s → isTrivial s = false) :
    (mk (unite ss)).components = ss.filterMap Component.ofSegment? := by
  cases ss with
  | nil => rfl
  | cons s ss =>
    have hsegments : segments (unite (s :: ss)) = s :: ss :=
      List.splitOn_intercalate slash h (List.cons_ne_nil s ss)
    have hs : isTrivial s = false := hfirst s rfl
    have habs : ¬ (mk (unite (s :: ss))).isAbsolute = true := by
      intro habs
      obtain ⟨bs, -, hslash⟩ := segments_of_isAbsolute habs
      rw [hsegments] at hslash
      obtain ⟨rfl, -⟩ := List.cons.inj hslash
      exact absurd hs (by decide)
    have hdot : s ≠ [dot] := by
      rintro rfl
      exact absurd hs (by decide)
    have hnone : (mk (unite (s :: ss))).first? = none := by
      rw [first?, if_neg habs, hsegments]
      simpa using hdot
    rw [components_eq, hnone, ordinary, hsegments]
    rfl

/-! ## 2. Removing a base from an absolute path -/

theorem components_of_isAbsolute (h : p.isAbsolute = true) : p.components = .root :: p.ordinary := by
  rw [components_eq, first?, if_pos h]
  rfl

theorem lead_of_isAbsolute (h : p.isAbsolute = true) :
    ∃ ss, p.lead = (some .root, ss) ∧ p.ordinary = ss.filterMap Component.ofSegment? := by
  obtain ⟨bs, -, hsegments⟩ := segments_of_isAbsolute h
  refine ⟨segments bs, ?_, ?_⟩
  · unfold lead
    rw [hsegments]
    simp [h]
  · rw [ordinary, hsegments]
    rfl

theorem slash_not_mem_of_mem_lead (p : Path) : ∀ s ∈ p.lead.2, slash ∉ s := by
  intro s hs
  exact slash_not_mem_of_mem_segments p.bytes s ((lead_snd_suffix p).subset hs)

theorem components_withoutTrivialEnd (h : p.isAbsolute = true) :
    p.withoutTrivialEnd.components = p.components := by
  obtain ⟨ss, hlead, hordinary⟩ := lead_of_isAbsolute h
  have hslash : ∀ s ∈ dropEndWhile isTrivial ss, slash ∉ s := by
    intro s hs
    refine slash_not_mem_of_mem_lead p s ?_
    rw [hlead]
    exact (List.rdropWhile_prefix isTrivial ss).subset hs
  have hkept : (segments (unite (dropEndWhile isTrivial ss))).filterMap Component.ofSegment? =
      ss.filterMap Component.ofSegment? := by
    rw [← filterMap_dropEndWhile_isTrivial ss]
    cases hss : dropEndWhile isTrivial ss with
    | nil => rfl
    | cons t ts =>
      rw [segments, unite, List.splitOn_intercalate slash (hss ▸ hslash) (List.cons_ne_nil t ts)]
  have habs : p.withoutTrivialEnd.isAbsolute = true := by
    unfold withoutTrivialEnd
    rw [hlead]
    rfl
  rw [components_of_isAbsolute habs, components_of_isAbsolute h, hordinary, ← hkept]
  unfold withoutTrivialEnd ordinary
  rw [hlead]
  show _ :: (segments (slash :: unite (dropEndWhile isTrivial ss))).filterMap _ = _
  rw [segments_cons_slash]
  rfl

/-- What is left by the segments behind some components. -/
theorem strip?_eq (hp : p.isAbsolute = true) (hb : b.isAbsolute = true) :
    p.strip? b = (afterComponents? b.ordinary p.lead.2).map fun left =>
      ⟨unite (dropEndWhile isTrivial (left.dropWhile isTrivial))⟩ := by
  obtain ⟨ss, hlead, -⟩ := lead_of_isAbsolute hp
  unfold strip?
  rw [components_of_isAbsolute hb, hlead]
  rfl

/-- No base that is relative is removed from an absolute path, unless it has no components at all. -/
theorem components_eq_nil_of_strip? (hp : p.isAbsolute = true) (hb : b.isAbsolute = false)
    (h : p.strip? b = some rest) : b.components = [] := by
  obtain ⟨ss, hlead, -⟩ := lead_of_isAbsolute hp
  unfold strip? at h
  rw [hlead] at h
  cases hcs : b.components with
  | nil => rfl
  | cons c cs =>
    have hc : c ≠ .root := by
      rintro rfl
      have hroot : b.isAbsolute = true := by
        rw [isAbsolute_iff_root_mem, hcs]
        exact List.mem_cons_self
      rw [hb] at hroot
      exact absurd hroot (by simp)
    rw [hcs] at h
    simp [hc] at h

theorem strip?_of_components_eq_nil (hb : b.components = []) :
    p.strip? b = some p.withoutTrivialEnd := by
  unfold strip?
  rw [hb]

/-- **Removing a base removes its components** and no others. -/
theorem components_of_strip? (hp : p.isAbsolute = true) (h : p.strip? b = some rest) :
    p.components = b.components ++ rest.components := by
  cases hb : b.isAbsolute with
  | false =>
    -- the empty base, which removes what is trivial at the end and nothing else
    have hnil := components_eq_nil_of_strip? hp hb h
    rw [strip?_of_components_eq_nil hnil, Option.some.injEq] at h
    rw [hnil, ← h, components_withoutTrivialEnd hp, List.nil_append]
  | true =>
    rw [strip?_eq hp hb] at h
    obtain ⟨left, hleft, hrest⟩ := Option.map_eq_some_iff.mp h
    have hslash : ∀ s ∈ dropEndWhile isTrivial (left.dropWhile isTrivial), slash ∉ s := by
      intro s hs
      have hmem : s ∈ left := (List.dropWhile_sublist _).subset ((List.rdropWhile_prefix isTrivial _).subset hs)
      exact slash_not_mem_of_mem_lead p s ((afterComponents?_suffix _ _ hleft).subset hmem)
    have hcomponents : rest.components = left.filterMap Component.ofSegment? := by
      rw [← hrest, components_unite hslash fun s hs => not_of_head?_dropEndWhile hs,
        filterMap_dropEndWhile_isTrivial, filterMap_dropWhile_isTrivial]
    obtain ⟨ss, hlead, hordinary⟩ := lead_of_isAbsolute hp
    rw [hlead] at hleft
    rw [components_of_isAbsolute hp, components_of_isAbsolute hb, hordinary,
      filterMap_of_afterComponents? _ _ hleft, hcomponents, List.cons_append]

/-- What begins with the components of an absolute path is absolute. -/
theorem isAbsolute_of_components_eq (hb : b.isAbsolute = true) (h : p.components = b.components ++ cs) :
    p.isAbsolute = true := by
  rw [isAbsolute_iff_root_mem, h, components_of_isAbsolute hb]
  exact List.mem_cons_self

theorem exists_strip? (hb : b.isAbsolute = true) (h : p.components = b.components ++ cs) :
    ∃ rest, p.strip? b = some rest := by
  have hp := isAbsolute_of_components_eq hb h
  obtain ⟨ss, hlead, hordinary⟩ := lead_of_isAbsolute hp
  rw [components_of_isAbsolute hp, components_of_isAbsolute hb, hordinary, List.cons_append] at h
  obtain ⟨left, hleft⟩ := exists_afterComponents? _ _ (List.cons.inj h).2
  rw [strip?_eq hp hb, hlead, hleft]
  exact ⟨_, rfl⟩

/-! ## 3. Joining what is left to the base -/

theorem ofSegment?_ne_current {s : Bytes} : Component.ofSegment? s ≠ some .current := by
  unfold Component.ofSegment?
  split
  · simp
  · split <;> simp

theorem current_not_mem_ordinary (p : Path) : Component.current ∉ p.ordinary := by
  intro h
  obtain ⟨s, -, hs⟩ := List.mem_filterMap.mp h
  exact ofSegment?_ne_current hs

/-- A path whose components are all found further back in another has no special first component. -/
theorem ordinary_eq_components (h : rest.components ⊆ p.ordinary) : rest.ordinary = rest.components := by
  have hnone : rest.first? = none := by
    have hfirst (c : Component) (hc : rest.first? = some c) : c ∈ p.ordinary := by
      apply h
      rw [components_eq, hc]
      exact List.mem_cons_self
    rcases rest.first?_cases with hf | hf | hf
    · exact hf
    · exact absurd (hfirst _ hf) (root_not_mem_ordinary p)
    · exact absurd (hfirst _ hf) (current_not_mem_ordinary p)
  rw [components_eq, hnone]
  rfl

/-- Joined to its base again, what is left is the path, by components. -/
theorem same_join_of_components (hb : b.isAbsolute = true)
    (h : p.components = b.components ++ rest.components) : (b.join rest).Same p := by
  have hp := isAbsolute_of_components_eq hb h
  have hsplit : p.ordinary = b.ordinary ++ rest.components := by
    rw [components_of_isAbsolute hp, components_of_isAbsolute hb, List.cons_append] at h
    exact (List.cons.inj h).2
  have hordinary : rest.ordinary = rest.components := by
    apply ordinary_eq_components (p := p)
    rw [hsplit]
    exact List.subset_append_right _ _
  have hrel : rest.isAbsolute = false := by
    rw [Bool.eq_false_iff, ne_eq, isAbsolute_iff_root_mem, ← hordinary]
    exact root_not_mem_ordinary rest
  show (b.join rest).components = p.components
  rw [components_of_isAbsolute (isAbsolute_join hb rest), ordinary_join hrel, hordinary, h,
    components_of_isAbsolute hb, List.cons_append]

/-! ## 4. The path whose text is shown -/

/-- What is left below the base, unless that is nothing, or else the path itself. -/
def seen (p : Path) (base : Option Path) : Path :=
  ((base.bind p.strip?).filter fun r => !r.bytes.isEmpty).getD p

theorem display_eq (p : Path) (base : Option Path) :
    p.display base = forwardSlashes (p.seen base).shown := rfl

theorem seen_eq_of_strip? (h : p.strip? b = some rest) (hne : rest.components ≠ []) :
    p.seen (some b) = rest := by
  have hbytes : rest.bytes ≠ [] := by
    intro hnil
    obtain ⟨bytes⟩ := rest
    obtain rfl : bytes = [] := hnil
    exact hne rfl
  rw [seen, Option.bind_some, h]
  simp [Option.filter, hbytes]

theorem seen_cases (p : Path) (base : Option Path) :
    p.seen base = p ∨ ∃ b, base = some b ∧ p.strip? b = some (p.seen base) := by
  cases base with
  | none => exact Or.inl rfl
  | some b =>
    rw [seen, Option.bind_some]
    cases hstrip : p.strip? b with
    | none => exact Or.inl rfl
    | some r =>
      cases hempty : r.bytes.isEmpty with
      | true => exact Or.inl (by simp [Option.filter, hempty])
      | false => exact Or.inr ⟨b, rfl, by simp [Option.filter, hempty, hstrip]⟩

/-- A root stands in front, so nothing absolute is left below a base that has components. -/
theorem same_of_strip?_of_isAbsolute (hp : p.isAbsolute = true) (hrest : rest.isAbsolute = true)
    (h : p.strip? b = some rest) : p.Same rest := by
  have hcomponents := components_of_strip? hp h
  cases hb : b.components with
  | nil =>
    rw [hb, List.nil_append] at hcomponents
    exact hcomponents
  | cons c cs =>
    rw [hb, components_of_isAbsolute hp, List.cons_append] at hcomponents
    refine absurd ?_ (root_not_mem_ordinary p)
    rw [(List.cons.inj hcomponents).2]
    exact List.mem_append_right _ ((isAbsolute_iff_root_mem rest).mp hrest)

/-- **What is seen of a path determines what it names.** Either nothing was taken away from both, or
the same components were; where it was taken from one of them only, what is left of that one is
relative, and the other is not. -/
theorem same_of_seen_eq (hp : p.isAbsolute = true) (hq : q.isAbsolute = true)
    (h : p.seen base = q.seen base) : p.Same q := by
  rcases p.seen_cases base with hfull | ⟨b, hbase, hstrip⟩
  · rcases q.seen_cases base with hfull' | ⟨b, hbase, hstrip⟩
    · rw [hfull, hfull'] at h
      exact h ▸ Same.refl p
    · rw [← h, hfull] at hstrip
      exact (same_of_strip?_of_isAbsolute hq hp hstrip).symm
  · rcases q.seen_cases base with hfull' | ⟨b', hbase', hstrip'⟩
    · rw [h, hfull'] at hstrip
      exact same_of_strip?_of_isAbsolute hp hq hstrip
    · obtain rfl : b = b' := Option.some.inj (hbase.symm.trans hbase')
      show p.components = q.components
      rw [components_of_strip? hp hstrip, components_of_strip? hq hstrip', h]

/-! ## 5. Paths that are shown as they are -/

/-- A path that is a text without backslashes, which showing it leaves alone. -/
def Legible (p : Path) : Prop := ∃ t, p.text? = some t ∧ '\\' ∉ t.toList

/-- A legible path is shown without loss: its bytes are those of a text, and it has no backslash that
showing would turn into a separator. -/
theorem Legible.ofString_shown (h : p.Legible) : ofString (forwardSlashes p.shown) = p := by
  obtain ⟨t, ht, hback⟩ := h
  rw [text?_eq_some_iff.mp ht, shown_ofString, forwardSlashes_eq_self hback]

theorem legible_ofString {r t : String} (hback : '\\' ∉ t.toList) (hsub : r.toList ⊆ '/' :: t.toList) :
    (ofString r).Legible := by
  refine ⟨r, text?_eq_some_iff.mpr rfl, fun hmem => ?_⟩
  rcases List.mem_cons.mp (hsub hmem) with hslash | ht
  · exact absurd hslash (by decide)
  · exact hback ht

theorem exists_text_withoutTrivialEnd {full : String} (h : (ofString full).isAbsolute = true) :
    ∃ r : String, (ofString full).withoutTrivialEnd = ofString r ∧ r.toList ⊆ '/' :: full.toList := by
  obtain ⟨ss, hlead, -⟩ := lead_of_isAbsolute h
  obtain ⟨gs, hgs, hchars⟩ := exists_segments_bytesOf full.toList
  have hsub : (dropEndWhile isTrivial ss).Sublist (gs.map bytesOf) := by
    have hss := (lead_snd_suffix (ofString full)).sublist
    rw [hlead, bytes_ofString, hgs] at hss
    exact (List.rdropWhile_prefix isTrivial ss).sublist.trans hss
  obtain ⟨kept, hkept, hunited⟩ := List.sublist_map_iff.mp hsub
  obtain ⟨ds, hds, hsubset⟩ := exists_unite_map_bytesOf fun g hg => hchars g (hkept.subset hg)
  refine ⟨.ofList ('/' :: ds), ?_, ?_⟩
  · unfold withoutTrivialEnd
    rw [hlead]
    show Path.mk (slash :: unite (dropEndWhile isTrivial ss)) = _
    rw [hunited, hds, ← bytesOf_cons_slash, ofString, Utf8.encode, String.toList_ofList]
    rfl
  · rw [String.toList_ofList]
    exact List.cons_subset.mpr ⟨List.mem_cons_self, hsubset⟩

theorem Legible.strip? (h : p.Legible) (hp : p.isAbsolute = true) (hstrip : p.strip? b = some rest) :
    rest.Legible := by
  obtain ⟨t, ht, hback⟩ := h
  obtain rfl := text?_eq_some_iff.mp ht
  cases hb : b.isAbsolute with
  | true =>
    obtain ⟨r, rfl, hsub, -⟩ := exists_text_of_strip? hb hstrip
    exact legible_ofString hback hsub
  | false =>
    obtain ⟨r, hr, hsub⟩ := exists_text_withoutTrivialEnd hp
    rw [strip?_of_components_eq_nil (components_eq_nil_of_strip? hp hb hstrip), Option.some.injEq,
      hr] at hstrip
    rw [← hstrip]
    exact legible_ofString hback hsub

/-- What is seen of a legible path is legible, since taking a base away puts no new characters in. -/
theorem Legible.seen (h : p.Legible) (hp : p.isAbsolute = true) : (p.seen base).Legible := by
  rcases p.seen_cases base with hfull | ⟨b, -, hstrip⟩
  · rw [hfull]
    exact h
  · exact h.strip? hp hstrip

theorem Legible.ofString_display (h : p.Legible) (hp : p.isAbsolute = true) :
    ofString (p.display base) = p.seen base := by
  rw [display_eq, (h.seen hp).ofString_shown]

/-! ## 6. What a shown path tells -/

/-- **A shown path tells which file it is.** Two paths that are shown alike, relative to whatever base or
to none, have the same components. A path strictly below an absolute base is shown as its further
components, and joined to the base the text gives the path again. -/
theorem display_identifies (hp : p.isAbsolute = true) (hlegible : p.Legible) :
    (∀ q base, q.isAbsolute = true → q.Legible → p.display base = q.display base → p.Same q) ∧
      ∀ b c cs, b.isAbsolute = true → p.components = b.components ++ c :: cs →
        (ofString (p.display (some b))).components = c :: cs ∧
          (b.join (ofString (p.display (some b)))).Same p := by
  constructor
  · intro q base hq hlegible' h
    have hseen : p.seen base = q.seen base := by
      rw [← hlegible.ofString_display hp, h, hlegible'.ofString_display hq]
    exact same_of_seen_eq hp hq hseen
  · intro b c cs hb hbelow
    obtain ⟨rest, hrest⟩ := exists_strip? hb hbelow
    have hcomponents : rest.components = c :: cs := by
      have hsplit := components_of_strip? hp hrest
      rw [hbelow] at hsplit
      exact (List.append_cancel_left hsplit).symm
    have hseen : p.seen (some b) = rest := by
      apply seen_eq_of_strip? hrest
      rw [hcomponents]
      exact List.cons_ne_nil c cs
    rw [hlegible.ofString_display hp, hseen]
    exact ⟨hcomponents, same_join_of_components hb (hbelow.trans (by rw [hcomponents]))⟩

theorem display_identifies_dotted :
    (ofString "/p/./a.ts").display (some (ofString "/p")) =
        (ofString "/p//a.ts/").display (some (ofString "/p")) ∧
      (ofString "/p/./a.ts").Same (ofString "/p//a.ts/") ∧
      ((ofString "/p").join (ofString ((ofString "/p/./a.ts").display (some (ofString "/p"))))).Same
        (ofString "/p/./a.ts") := by
  have hdotted : (ofString "/p/./a.ts").Legible := ⟨_, text?_eq_some_iff.mpr rfl, by decide⟩
  have hdoubled : (ofString "/p//a.ts/").Legible := ⟨_, text?_eq_some_iff.mpr rfl, by decide⟩
  have hshown : (ofString "/p/./a.ts").display (some (ofString "/p")) =
      (ofString "/p//a.ts/").display (some (ofString "/p")) := by decide +kernel
  obtain ⟨halike, hbelow⟩ := display_identifies (p := ofString "/p/./a.ts") (by decide) hdotted
  refine ⟨hshown, halike _ _ (by decide) hdoubled hshown, ?_⟩
  exact (hbelow (ofString "/p") (.name [0x61, 0x2E, 0x74, 0x73]) [] (by decide) (by decide)).2

end Citator.Path

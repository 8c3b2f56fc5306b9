import Citator.Proofs.Path.Join
import Citator.Proofs.Text.Blank
import Citator.Proofs.Text.Utf8

/-!
# `Citator.Proofs.Path.Strip` — what is left of a path below a base

Removing a base compares components and answers with text. The text consists of segments of the path,
in their order, and the first of them counts: it is neither empty nor `.`. So what is left is never
absolute and never begins with `./`, however the path was written.

If the path is a text, then so is what is left, and it has no character that the path does not have,
separators apart. For that a segment of a text has to be a text, which it is because no byte of
another character is a separator.
-/

namespace Citator.Path

open Utf8

variable {p base rest : Path} {s bs : Bytes} {ss : List Bytes} {cs : List Char}

/-! ## 1. Segments -/

theorem slash_not_mem_of_mem_segments (bs : Bytes) : ∀ s ∈ segments bs, slash ∉ s := by
  induction bs with
  | nil => simp [segments]
  | cons b bs ih =>
    obtain ⟨t, ts, hts⟩ := List.exists_cons_of_ne_nil (List.splitOn_ne_nil slash bs)
    rw [segments, hts] at ih
    rw [segments, List.splitOn_cons_eq_if_modifyHead, hts]
    intro s hs
    split at hs
    · rcases List.mem_cons.mp hs with rfl | hs
      · exact List.not_mem_nil
      · exact ih s hs
    · next hb =>
      rcases List.mem_cons.mp hs with rfl | hs
      · exact not_or.mpr ⟨fun h => hb (beq_iff_eq.mpr h.symm), ih t List.mem_cons_self⟩ ∘ List.mem_cons.mp
      · exact ih s (List.mem_cons_of_mem _ hs)

/-! ## 2. The segments that are left -/

theorem afterComponents?_suffix : ∀ (cs : List Component) (ss : List Bytes) {left : List Bytes},
    afterComponents? cs ss = some left → left <:+ ss
  | [], ss, left, h => by
    rw [afterComponents?, Option.some.injEq] at h
    exact h ▸ List.suffix_refl _
  | _ :: _, [], _, h => by simp [afterComponents?] at h
  | c :: cs, s :: ss, left, h => by
    rw [afterComponents?] at h
    split at h
    · exact (afterComponents?_suffix _ ss h).trans (List.suffix_cons s ss)
    · split at h
      · exact (afterComponents?_suffix cs ss h).trans (List.suffix_cons s ss)
      · exact absurd h (by simp)

theorem lead_snd_suffix (p : Path) : p.lead.2 <:+ segments p.bytes := by
  unfold lead
  cases segments p.bytes with
  | nil => exact List.suffix_refl _
  | cons s ss =>
    simp only
    split
    · exact List.suffix_cons s ss
    · split
      · exact List.suffix_cons s ss
      · exact List.suffix_refl _

/-- What is left below an absolute base are segments behind those of the base, less the trivial ones at
either end. -/
theorem exists_suffix_of_strip? (habs : base.isAbsolute = true) (h : p.strip? base = some rest) :
    ∃ left, left <:+ segments p.bytes ∧
      rest = ⟨unite (Text.dropEndWhile isTrivial (left.dropWhile isTrivial))⟩ := by
  have hcomps : base.components = .root :: base.ordinary := by
    rw [components_eq, first?, if_pos habs]
    rfl
  have hlast := lead_snd_suffix p
  unfold strip? at h
  simp only [hcomps] at h
  split at h
  · next heq => exact absurd heq (by simp)
  · next c cs d ss heq hlead =>
    rw [hlead] at hlast
    split at h
    · obtain ⟨left, hleft, hrest⟩ := Option.map_eq_some_iff.mp h
      exact ⟨left, (afterComponents?_suffix _ _ hleft).trans hlast, hrest.symm⟩
    · exact absurd h (by simp)
  · next c cs ss heq hlead =>
    rw [hlead] at hlast
    obtain ⟨left, hleft, hrest⟩ := Option.map_eq_some_iff.mp h
    exact ⟨left, (afterComponents?_suffix _ _ hleft).trans hlast, hrest.symm⟩

/-- So what is left are segments of the path, and the first of them counts. -/
theorem exists_of_strip? (habs : base.isAbsolute = true) (h : p.strip? base = some rest) :
    ∃ ss, ss.Sublist (segments p.bytes) ∧ unite ss = rest.bytes ∧
      ∀ s, ss.head? = some s → isTrivial s = false := by
  obtain ⟨left, hleft, rfl⟩ := exists_suffix_of_strip? habs h
  refine ⟨_, ?_, rfl, fun s hs => Text.not_of_head?_dropEndWhile hs⟩
  have hfront := (List.rdropWhile_prefix isTrivial (left.dropWhile isTrivial)).sublist
  exact (hfront.trans (List.dropWhile_sublist _)).trans hleft.sublist

/-- It does not begin with a separator, nor with a `.` and a separator. -/
theorem not_prefix_of_strip? (habs : base.isAbsolute = true) (h : p.strip? base = some rest) :
    ∀ front ∈ [[], [dot]], ∀ bs, rest.bytes ≠ front ++ slash :: bs := by
  obtain ⟨ss, hsub, hunite, hfirst⟩ := exists_of_strip? habs h
  intro front hfront bs heq
  have htrivial : isTrivial front = true ∧ slash ∉ front := by
    rcases List.mem_cons.mp hfront with rfl | hfront
    · decide
    · obtain rfl := List.mem_singleton.mp hfront
      decide
  rw [← hunite] at heq
  cases ss with
  | nil => simp [unite] at heq
  | cons s ss =>
    have hslash : ∀ t ∈ s :: ss, slash ∉ t := fun t ht =>
      slash_not_mem_of_mem_segments p.bytes t (hsub.subset ht)
    have hsegments := List.splitOn_intercalate slash hslash (List.cons_ne_nil s ss)
    rw [← unite, heq, List.splitOn_append_cons_self_of_not_mem htrivial.2] at hsegments
    obtain ⟨rfl, -⟩ := List.cons.inj hsegments
    have hfalse := hfirst front rfl
    rw [htrivial.1] at hfalse
    exact absurd hfalse (by simp)

/-! ## 3. Paths that are texts -/

theorem text?_eq_some_iff {s : String} : p.text? = some s ↔ p = ofString s := by
  rw [text?, decode?_eq_some_iff]
  constructor
  · intro h
    rw [ofString, h]
  · intro h
    rw [h, ofString]

theorem ofString_injective : Function.Injective ofString := by
  intro s s' h
  have htext := congrArg text? h
  rwa [text?_eq_some_iff.mpr rfl, text?_eq_some_iff.mpr rfl, Option.some.injEq] at htext

theorem shown_ofString (s : String) : (ofString s).shown = s := lossy_of_decode? (decode?_encode s)

theorem forwardSlashes_eq_self {r : String} (h : '\\' ∉ r.toList) : forwardSlashes r = r := by
  have hmap : (r.toList.map fun c => if c = '\\' then '/' else c) = r.toList := by
    refine (List.map_congr_left fun c hc => ?_).trans (List.map_id' _)
    rw [if_neg]
    rintro rfl
    exact h hc
  rw [forwardSlashes, hmap, String.ofList_toList]

/-- The bytes of some characters. -/
def bytesOf (cs : List Char) : Bytes := cs.flatMap String.utf8EncodeChar

theorem bytesOf_append (cs ds : List Char) : bytesOf (cs ++ ds) = bytesOf cs ++ bytesOf ds :=
  List.flatMap_append

theorem bytesOf_cons_slash (cs : List Char) : bytesOf ('/' :: cs) = slash :: bytesOf cs := rfl

theorem bytes_ofString (s : String) : (ofString s).bytes = bytesOf s.toList := rfl

/-- The separator is a byte of no other character. -/
theorem slash_not_mem_encodeChar {c : Char} (hc : c ≠ '/') : slash ∉ String.utf8EncodeChar c := by
  intro hmem
  rcases (spells_encodeChar c).toNat_eq_or_le hmem with heq | hle
  · exact hc (Char.toNat_inj.mp heq.symm)
  · exact absurd hle (by decide)

theorem isAbsolute_ofString_eq_false {t : String} (h : ∀ cs, t.toList ≠ '/' :: cs) :
    (ofString t).isAbsolute = false := by
  rw [isAbsolute, bytes_ofString]
  cases hchars : t.toList with
  | nil => rfl
  | cons c cs =>
    have hc : c ≠ '/' := by
      rintro rfl
      exact h cs hchars
    obtain ⟨b, bs, hbytes⟩ := List.exists_cons_of_ne_nil (String.utf8EncodeChar_ne_nil (c := c))
    have hb : b ≠ slash := by
      rintro rfl
      exact slash_not_mem_encodeChar hc (hbytes ▸ List.mem_cons_self)
    rw [bytesOf, List.flatMap_cons, hbytes]
    simpa using hb

theorem segments_append_of_slash_not_mem {front : Bytes} (h : slash ∉ front)
    (hbs : segments bs = s :: ss) : segments (front ++ bs) = (front ++ s) :: ss := by
  induction front with
  | nil => exact hbs
  | cons b front ih =>
    obtain ⟨hb, hfront⟩ := not_or.mp (mt List.mem_cons.mpr h)
    have hne : (b == slash) = false := beq_eq_false_iff_ne.mpr (Ne.symm hb)
    rw [List.cons_append, segments, List.splitOn_cons_eq_if_modifyHead, hne, ← segments, ih hfront]
    rfl

/-- The segments of a text are texts, and their characters are among those of the text. -/
theorem exists_segments_bytesOf (cs : List Char) :
    ∃ gs : List (List Char), segments (bytesOf cs) = gs.map bytesOf ∧ ∀ g ∈ gs, g ⊆ cs := by
  induction cs with
  | nil => exact ⟨[[]], rfl, by simp⟩
  | cons c cs ih =>
    obtain ⟨gs, hgs, hsub⟩ := ih
    by_cases hc : c = '/'
    · refine ⟨[] :: gs, ?_, ?_⟩
      · rw [hc, bytesOf_cons_slash, segments_cons_slash, hgs]
        rfl
      · refine List.forall_mem_cons.mpr ⟨List.nil_subset _, fun g hg => ?_⟩
        exact List.subset_cons_of_subset c (hsub g hg)
    · cases gs with
      | nil => exact absurd hgs (List.splitOn_ne_nil slash _)
      | cons g gs =>
        obtain ⟨hg, hrest⟩ := List.forall_mem_cons.mp hsub
        refine ⟨(c :: g) :: gs, ?_, ?_⟩
        · exact segments_append_of_slash_not_mem (slash_not_mem_encodeChar hc) hgs
        · refine List.forall_mem_cons.mpr ⟨List.cons_subset_cons c hg, fun g' hg' => ?_⟩
          exact List.subset_cons_of_subset c (hrest g' hg')

/-- Texts united are a text. -/
theorem exists_unite_map_bytesOf {gs : List (List Char)} (h : ∀ g ∈ gs, g ⊆ cs) :
    ∃ ds, unite (gs.map bytesOf) = bytesOf ds ∧ ds ⊆ '/' :: cs := by
  induction gs with
  | nil => exact ⟨[], rfl, List.nil_subset _⟩
  | cons g gs ih =>
    obtain ⟨hg, hrest⟩ := List.forall_mem_cons.mp h
    have hg' := List.subset_cons_of_subset '/' hg
    obtain ⟨ds, hds, hsub⟩ := ih hrest
    cases gs with
    | nil => exact ⟨g, List.intercalate_singleton, hg'⟩
    | cons g₂ gs =>
      refine ⟨g ++ '/' :: ds, ?_, List.append_subset.mpr ⟨hg', List.cons_subset.mpr ⟨?_, hsub⟩⟩⟩
      · rw [List.map_cons, List.map_cons, unite_cons_cons, ← List.map_cons, hds, bytesOf_append,
          bytesOf_cons_slash]
      · exact List.mem_cons_self

/-- **What is left of a text is a text**: it has no characters but those of the path and separators, and
it does not begin with a separator, nor with a `.` and a separator. -/
theorem exists_text_of_strip? {full : String} (habs : base.isAbsolute = true)
    (h : (ofString full).strip? base = some rest) :
    ∃ r : String, rest = ofString r ∧ r.toList ⊆ '/' :: full.toList ∧
      ∀ front ∈ [[], ['.']], ∀ cs, r.toList ≠ front ++ '/' :: cs := by
  obtain ⟨ss, hsub, hunite, -⟩ := exists_of_strip? habs h
  obtain ⟨gs, hgs, hchars⟩ := exists_segments_bytesOf full.toList
  rw [bytes_ofString, hgs] at hsub
  obtain ⟨kept, hkept, rfl⟩ := List.sublist_map_iff.mp hsub
  obtain ⟨ds, hds, hsubset⟩ := exists_unite_map_bytesOf fun g hg => hchars g (hkept.subset hg)
  have hrest : rest = ofString (.ofList ds) := by
    rw [hds] at hunite
    rw [ofString, encode, String.toList_ofList]
    exact congrArg Path.mk hunite.symm
  refine ⟨.ofList ds, hrest, by rwa [String.toList_ofList], fun front hfront cs heq => ?_⟩
  have hbytes : rest.bytes = bytesOf front ++ slash :: bytesOf cs := by
    rw [hrest, bytes_ofString, heq, bytesOf_append, bytesOf_cons_slash]
  refine not_prefix_of_strip? habs h (bytesOf front) ?_ _ hbytes
  rcases List.mem_cons.mp hfront with rfl | hfront
  · exact List.mem_cons_self
  · rw [List.mem_singleton.mp hfront]
    decide

end Citator.Path

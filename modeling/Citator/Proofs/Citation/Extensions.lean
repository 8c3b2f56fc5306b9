import Mathlib.Data.List.Basic
import Citator.Proofs.Citation.Pattern
import Citator.Proofs.Corpus.Memory
import Citator.Proofs.Expansion.Course

/-!
# `Citator.Proofs.Citation.Extensions` — what a list of extensions decides

A search takes two things from the configured extensions: what may stand behind the token, and the token
itself, which is the name of the target without an extension. For the first the list is a set. For the
second it is a list, since a name loses the first extension that it ends in: `a.d.ts` loses `d.ts` or
`ts`, whichever comes first.

Two extensions fit one name only if one of them ends in a dot and the other. Where the extensions are
*flat*, which excludes that, the order of the list and the repetitions in it decide nothing: neither what
a search finds nor the tree that is grown from it.

An extension that is appended can shorten the token of a file, and then another text is searched for. Yet
nothing that was found is lost: wherever the long token stood, the short one stands with the appended
extension behind it.
-/

namespace Citator

open Extension (kept)

namespace Citation

variable {exts exts' more : List String} {e e' name stem stem' content : String} {p : Path}

/-! ## 1. The token of a file -/

theorem StemOf.unique (h : StemOf exts name stem) (h' : StemOf exts name stem') : stem = stem' := by
  rw [← String.toList_inj, ← stemOf_iff.mp h, ← stemOf_iff.mp h']

theorem token_eq_ok_iff :
    token exts p = .ok stem ↔ StemOf exts (nameShown p) stem ∧ stem ≠ "" := by
  rw [stemOf_iff]
  constructor
  · intro h
    unfold token at h
    cases hchars : tokenChars exts (nameShown p).toList with
    | nil => simp [hchars] at h
    | cons c cs =>
      rw [hchars] at h
      cases h
      simp
  · intro h
    obtain ⟨hchars, hne⟩ := h
    have hstem : String.ofList (tokenChars exts (nameShown p).toList) = stem := by
      rw [hchars, String.ofList_toList]
    rw [← hstem] at hne ⊢
    exact token_of_ne_empty hne

/-! ## 2. Flat extensions -/

/-- No extension ends in a dot and another. -/
def Flat (exts : List String) : Prop :=
  ∀ e ∈ exts, ∀ e' ∈ exts, ¬ ("." ++ e').toList <:+ e.toList

instance (exts : List String) : Decidable (Flat exts) :=
  inferInstanceAs (Decidable (∀ _ ∈ _, ∀ _ ∈ _, _))

/-- If the shorter of two endings is no part of the extension in the longer, they are the same. -/
theorem eq_of_suffix (h : ("." ++ e).toList <:+ ("." ++ e').toList)
    (hno : ¬ ("." ++ e).toList <:+ e'.toList) : e = e' := by
  rw [String.toList_append (s := ".") (t := e')] at h
  cases List.suffix_cons_iff.mp h with
  | inl heq =>
    rw [String.toList_append] at heq
    exact String.toList_inj.mp (List.cons.inj heq).2
  | inr hsuffix => exact absurd hsuffix hno

/-- At most one of flat extensions fits a name. -/
theorem Flat.eq_of_fits (h : Flat exts) (he : e ∈ exts) (he' : e' ∈ exts)
    (hfits : ("." ++ e).toList <:+ name.toList) (hfits' : ("." ++ e').toList <:+ name.toList) :
    e = e' := by
  cases List.suffix_or_suffix_of_suffix hfits hfits' with
  | inl hshort => exact eq_of_suffix hshort (h e' he' e he)
  | inr hshort => exact (eq_of_suffix hshort (h e he e' he')).symm

/-- What is cut off a name fits it. -/
theorem fits_of_eq (h : name = stem ++ "." ++ e) : ("." ++ e).toList <:+ name.toList := by
  subst h
  rw [String.append_assoc, String.toList_append (s := stem)]
  exact List.suffix_append _ _

theorem exists_stemOf (exts : List String) (name : String) : ∃ stem, StemOf exts name stem :=
  ⟨String.ofList (tokenChars exts name.toList), stemOf_iff.mpr String.toList_ofList.symm⟩

/-- Two lists of the same flat extensions leave the same of a name. -/
theorem Flat.stem_eq (hflat : Flat exts) (hset : ∀ e, e ∈ exts ↔ e ∈ exts')
    (h : StemOf exts name stem) (h' : StemOf exts' name stem') : stem = stem' := by
  cases h with
  | @cut before after e _ hexts _ hname =>
    have he : e ∈ exts := by simp [hexts]
    cases h' with
    | @cut before' after' e' _ hexts' _ hname' =>
      have he' : e' ∈ exts := (hset e').mpr (by simp [hexts'])
      have hsame : e = e' := hflat.eq_of_fits he he' (fits_of_eq hname) (fits_of_eq hname')
      subst hsame
      rw [hname, String.append_assoc, String.append_assoc, ← String.toList_inj, String.toList_append,
        String.toList_append (s := stem')] at hname'
      exact String.toList_inj.mp (List.append_cancel_right hname')
    | whole hnone => exact absurd (fits_of_eq hname) (hnone e ((hset e).mp he))
  | whole hnone =>
    cases h' with
    | @cut before' after' e' _ hexts' _ hname' =>
      have he' : e' ∈ exts := (hset e').mpr (by simp [hexts'])
      exact absurd (fits_of_eq hname') (hnone e' he')
    | whole _ => rfl

theorem Flat.stemOf_congr (hflat : Flat exts) (hset : ∀ e, e ∈ exts ↔ e ∈ exts') :
    StemOf exts name stem ↔ StemOf exts' name stem := by
  constructor
  · intro h
    obtain ⟨stem', h'⟩ := exists_stemOf exts' name
    rwa [hflat.stem_eq hset h h']
  · intro h'
    obtain ⟨stem', h⟩ := exists_stemOf exts name
    rwa [← hflat.stem_eq hset h h']

theorem Flat.token_congr (hflat : Flat exts) (hset : ∀ e, e ∈ exts ↔ e ∈ exts') (p : Path) :
    token exts p = token exts' p := by
  obtain ⟨stem, h⟩ := exists_stemOf exts (nameShown p)
  have h' := (hflat.stemOf_congr hset).mp h
  unfold token
  rw [stemOf_iff.mp h, stemOf_iff.mp h']

theorem Mentions.mono (hsub : exts ⊆ exts') (h : Mentions exts stem content) :
    Mentions exts' stem content := by
  obtain ⟨ending, hending, hinfix⟩ := h
  refine ⟨ending, ?_, hinfix⟩
  exact List.cons_subset_cons _ (List.cons_subset_cons _ (List.map_subset _ hsub)) hending

theorem cites_congr (hset : ∀ e, e ∈ exts ↔ e ∈ exts') (stem content : String) :
    cites stem.toList (endings exts) content.toList =
      cites stem.toList (endings exts') content.toList := by
  rw [Bool.eq_iff_iff, cites_iff_mentions, cites_iff_mentions]
  exact ⟨.mono fun e => (hset e).mp, .mono fun e => (hset e).mpr⟩

/-! ## 3. Appended extensions -/

/-- With more extensions a name keeps the stem that it had, or it was whole and loses one of them. -/
theorem StemOf.append (h : StemOf exts name stem) (h' : StemOf (exts ++ more) name stem') :
    stem' = stem ∨ ∃ e ∈ more, stem = stem' ++ "." ++ e := by
  cases h with
  | @cut before after e _ hexts hbefore hname =>
    have hexts' : exts ++ more = before ++ e :: (after ++ more) := by simp [hexts]
    exact Or.inl (h'.unique (.cut hexts' hbefore hname))
  | whole hnone =>
    cases h' with
    | @cut before after e _ hexts _ hname =>
      have he : e ∈ exts ++ more := by simp [hexts]
      cases List.mem_append.mp he with
      | inl hold => exact absurd (fits_of_eq hname) (hnone e hold)
      | inr hnew => exact Or.inr ⟨e, hnew, hname⟩
    | whole _ => exact Or.inl rfl

/-- Where a stem is mentioned, so is what an extension is cut off from, with this extension. -/
theorem Mentions.of_cut (he : e ∈ exts') (h : Mentions exts (stem ++ "." ++ e) content) :
    Mentions exts' stem content := by
  obtain ⟨ending, _, hinfix⟩ := h
  refine ⟨"." ++ e, by simp [he], ?_⟩
  refine List.IsInfix.trans ?_ hinfix
  rw [String.toList_append (t := ending), String.append_assoc]
  exact (List.prefix_append _ _).isInfix

/-- A text that mentions a stem mentions what is left of it with more extensions. -/
theorem Mentions.append (hstem : StemOf exts name stem) (hstem' : StemOf (exts ++ more) name stem')
    (h : Mentions exts stem content) : Mentions (exts ++ more) stem' content := by
  rcases hstem.append hstem' with rfl | ⟨e, he, rfl⟩
  · exact h.mono (List.subset_append_left _ _)
  · exact h.of_cut (List.mem_append_right _ he)

end Citation

/-- Files below `/p` that refer to a component, with and without its extension. -/
def Finder.componentUsers : Finder :=
  ofTexts "/p" [("widget.vue", ""), ("a.ts", "import './widget.vue'"), ("b.ts", "import './widget'"),
    ("c.ts", "see widget.vue.ts")]

namespace Snapshot

open Citation Finder

variable {s : Snapshot} {exts exts' more : List String} {p : Path} {found found' : List Path}

theorem referrers_congr_extensions (hset : ∀ e, e ∈ kept exts ↔ e ∈ kept exts')
    (hflat : Flat (kept exts)) (s : Snapshot) (p : Path) :
    s.referrers exts p = s.referrers exts' p := by
  simp only [referrers, citations, hflat.token_congr hset, cites_congr hset]

theorem kept_append (exts more : List String) : kept (exts ++ more) = kept exts ++ kept more := by
  simp [kept]

/-- **An appended extension hides nothing.** If a search succeeds with some extensions, and also with more
of them behind, then it finds no less with more: what it found before stands among what it finds, in the
same order. -/
theorem referrers_append (h : s.referrers exts p = .ok found)
    (h' : s.referrers (exts ++ more) p = .ok found') : found ⊆ found' ∧ found.Sublist found' := by
  obtain ⟨stem, hstem, rfl⟩ := referrers_eq_ok_iff.mp h
  obtain ⟨stem', hstem', rfl⟩ := referrers_eq_ok_iff.mp h'
  rw [kept_append] at hstem' ⊢
  have hsub : ∀ f : SourceFile,
      cites stem.toList (endings (kept exts)) f.content.toList = true →
        cites stem'.toList (endings (kept exts ++ kept more)) f.content.toList = true := by
    intro f hf
    rw [cites_iff_mentions] at hf ⊢
    exact hf.append (token_eq_ok_iff.mp hstem).1 (token_eq_ok_iff.mp hstem').1
  have hfound := (List.monotone_filter_right s.files hsub).map SourceFile.path
  exact ⟨hfound.subset, hfound⟩

/-- Searched for as `widget.vue` the component has two referrers. Searched for as `widget` it has these
and one more. -/
theorem referrers_append_componentUsers :
    componentUsers.snapshot.referrers ["ts"] (.ofString "/p/widget.vue") =
        .ok [.ofString "/p/a.ts", .ofString "/p/c.ts"] ∧
      componentUsers.snapshot.referrers (["ts"] ++ [".vue"]) (.ofString "/p/widget.vue") =
        .ok [.ofString "/p/a.ts", .ofString "/p/b.ts", .ofString "/p/c.ts"] ∧
      [Path.ofString "/p/a.ts", .ofString "/p/c.ts"].Sublist
        [.ofString "/p/a.ts", .ofString "/p/b.ts", .ofString "/p/c.ts"] := by
  have hfew : componentUsers.snapshot.referrers ["ts"] (.ofString "/p/widget.vue") =
      .ok [.ofString "/p/a.ts", .ofString "/p/c.ts"] := by decide +kernel
  have hmany : componentUsers.snapshot.referrers (["ts"] ++ [".vue"]) (.ofString "/p/widget.vue") =
      .ok [.ofString "/p/a.ts", .ofString "/p/b.ts", .ofString "/p/c.ts"] := by decide +kernel
  exact ⟨hfew, hmany, (referrers_append hfew hmany).2⟩

end Snapshot

/-! ## 4. Whole trees -/

namespace Finder

variable {exts exts' : List String}

/-- The same finder with other extensions. -/
def withExtensions (f : Finder) (exts : List String) : Finder := { f with extensions := exts }

theorem inquiry_withExtensions (hset : ∀ e, e ∈ kept exts ↔ e ∈ kept exts')
    (hflat : Citation.Flat (kept exts)) (f : Finder) :
    (f.withExtensions exts).inquiry = (f.withExtensions exts').inquiry := by
  have hreferrers : f.snapshot.referrers exts = f.snapshot.referrers exts' := by
    funext p
    exact Snapshot.referrers_congr_extensions hset hflat f.snapshot p
  simp only [inquiry, withExtensions, hreferrers]

theorem expandTree_withExtensions (hset : ∀ e, e ∈ kept exts ↔ e ∈ kept exts')
    (hflat : Citation.Flat (kept exts)) (f : Finder) (t : RefTree) :
    (f.withExtensions exts).expandTree t = (f.withExtensions exts').expandTree t := by
  unfold expandTree
  rw [inquiry_withExtensions hset hflat]
  rfl

/-- **The order of the extensions does not matter**, nor do dots in front of them, blanks around them and
repetitions, where no extension ends in a dot and another: a search for a file fails for both lists, with
the same error, or finds the same files in the same order, and so the same tree is grown. -/
theorem build_withExtensions (hset : ∀ e, e ∈ kept exts ↔ e ∈ kept exts')
    (hflat : Citation.Flat (kept exts)) :
    (∀ (s : Snapshot) (p : Path), s.referrers exts p = s.referrers exts' p) ∧
      ∀ f : Finder,
        (∀ t, (f.withExtensions exts).expandTree t = (f.withExtensions exts').expandTree t) ∧
        ∀ name, (f.withExtensions exts).build name = (f.withExtensions exts').build name := by
  refine ⟨Snapshot.referrers_congr_extensions hset hflat, ?_⟩
  intro f
  have htree := expandTree_withExtensions hset hflat f
  refine ⟨htree, ?_⟩
  intro name
  have hroot : (f.withExtensions exts).rootNode name = (f.withExtensions exts').rootNode name := rfl
  unfold build build?
  rw [hroot, htree]
  rfl

/-- Two ways to write the extensions `ts` and `vue` grow one tree for the component. -/
theorem build_withExtensions_componentUsers :
    ∃ e, (componentUsers.withExtensions ["ts", "vue"]).build "widget.vue" = .ok e ∧
      e.root.nodeCount = 4 ∧
      (componentUsers.withExtensions [" .vue", "ts", "", "..ts "]).build "widget.vue" = .ok e := by
  have hkept : kept ["ts", "vue"] = ["ts", "vue"] := by decide +kernel
  have hkept' : kept [" .vue", "ts", "", "..ts "] = ["vue", "ts", "ts"] := by decide +kernel
  have hset : ∀ e, e ∈ kept ["ts", "vue"] ↔ e ∈ kept [" .vue", "ts", "", "..ts "] := by
    intro e
    rw [hkept, hkept']
    simp [or_comm]
  have hflat : Citation.Flat (kept ["ts", "vue"]) := by
    rw [hkept]
    decide
  obtain ⟨e, hb, hfour⟩ :
      ∃ e, (componentUsers.withExtensions ["ts", "vue"]).build "widget.vue" = .ok e ∧
        e.root.nodeCount = 4 :=
    exists_build_of_map (m := (·.root.nodeCount)) (by decide +kernel)
  refine ⟨e, hb, hfour, ?_⟩
  rw [← ((build_withExtensions hset hflat).2 _).2, hb]

end Finder

end Citator

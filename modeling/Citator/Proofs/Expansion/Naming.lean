import Citator.Proofs.Expansion.Identity
import Citator.Proofs.Path.Strip
import Citator.Proofs.Text.Blank

/-!
# `Citator.Proofs.Expansion.Naming` — one file under four names

A file can be asked for by its path below the root, with `./` in front or with blanks around it, or by
its full path. The first three are looked up as a text, among relative paths, file names and stems, and
the last is compared by components. They meet on one file. The relative path comes first, whatever file
names and stems there are; and what is looked up is that path again, since a relative path never begins
with `./` itself (`exists_text_of_strip?`).

From there on the name plays no part: what is built depends on the file that the name stands for, and
on the name only if there is none (`build_congr`).
-/

namespace Citator

open Citator.Path Citator.Text

/-! ## 1. Names that looking up leaves alone -/

namespace Snapshot

variable {s : Snapshot} {g : SourceFile} {name full r : String}

theorem dropDotSlashes_eq_self {cs : List Char} (h : ∀ ds, cs ≠ '.' :: '/' :: ds) :
    dropDotSlashes cs = cs := by
  unfold dropDotSlashes
  split
  · next ds => exact absurd rfl (h ds)
  · rfl

/-- A text that is looked up as it is: it is not empty and has no blank at its ends, no backslash, and
neither `/` nor `./` in front. -/
structure Plain (r : String) : Prop where
  ne_empty : r ≠ ""
  starts : StartsTight r.toList
  ends : EndsTight r.toList
  back : '\\' ∉ r.toList
  front : ∀ front ∈ [[], ['.']], ∀ cs, r.toList ≠ front ++ '/' :: cs

theorem Plain.toList_ne_nil (hr : Plain r) : r.toList ≠ [] :=
  mt String.toList_eq_nil_iff.mp hr.ne_empty

theorem Plain.dropDotSlashes_eq (hr : Plain r) : dropDotSlashes r.toList = r.toList :=
  dropDotSlashes_eq_self (hr.front ['.'] (by simp))

/-- The ways to write the name of a file: `r` is its path below the root, and `full` its whole path. -/
inductive Spelling (r full : String) : String → Prop where
  | relative : Spelling r full r
  | dotted : Spelling r full ("./" ++ r)
  | padded {left right : String} (hleft : ∀ c ∈ left.toList, isBlank c = true)
      (hright : ∀ c ∈ right.toList, isBlank c = true) : Spelling r full (left ++ r ++ right)
  | absolute : Spelling r full full

theorem wantedName_padded {left right : String} (hr : Plain r)
    (hleft : ∀ c ∈ left.toList, isBlank c = true) (hright : ∀ c ∈ right.toList, isBlank c = true) :
    wantedName (left ++ r ++ right) = r := by
  have htrim : trim (left ++ r ++ right) = r := by
    rw [trim, String.toList_append, String.toList_append,
      trimmed_padded hleft hright hr.toList_ne_nil hr.starts hr.ends, String.ofList_toList]
  rw [wantedName, htrim, forwardSlashes_eq_self hr.back, hr.dropDotSlashes_eq, String.ofList_toList]

theorem wantedName_self (hr : Plain r) : wantedName r = r := by
  have hpadded : wantedName ("" ++ r ++ "") = r := wantedName_padded hr (by simp) (by simp)
  rwa [String.empty_append, String.append_empty] at hpadded

theorem wantedName_dotted (hr : Plain r) : wantedName ("./" ++ r) = r := by
  have hchars : ("./" ++ r).toList = '.' :: '/' :: r.toList := String.toList_append
  have htight : StartsTight ("./" ++ r).toList ∧ EndsTight ("./" ++ r).toList := by
    rw [hchars]
    refine ⟨startsTight_cons.mpr (by decide), fun c hc => hr.ends c ?_⟩
    rwa [List.getLast?_cons_of_ne_nil (List.cons_ne_nil _ _),
      List.getLast?_cons_of_ne_nil hr.toList_ne_nil] at hc
  have hback : '\\' ∉ ("./" ++ r).toList := by
    rw [hchars]
    simpa using hr.back
  rw [wantedName, trim, trimmed_eq_self_iff.mpr htight, String.ofList_toList,
    forwardSlashes_eq_self hback, hchars, dropDotSlashes, hr.dropDotSlashes_eq, String.ofList_toList]

/-! ## 2. The file that has a relative path -/

/-- `g` is the first file with the path `r` below the root. -/
structure IsFirst (s : Snapshot) (r : String) (g : SourceFile) : Prop where
  relative : s.relativePath? g.path = some r
  first : ∃ before after, s.files = before ++ g :: after ∧
    ∀ h ∈ before, s.relativePath? h.path ≠ some r

theorem IsFirst.mem (hg : s.IsFirst r g) : g ∈ s.files := by
  obtain ⟨before, after, hfiles, -⟩ := hg.first
  rw [hfiles]
  exact List.mem_append_right _ List.mem_cons_self

/-- Relative paths come before file names and stems. -/
theorem resolve?_of_isFirst (hg : s.IsFirst r g) (hne : r ≠ "") (hname : wantedName name = r) :
    s.resolve? name = some g := by
  have hfind : (s.files.find? fun h => s.relativePath? h.path == some r) = some g := by
    obtain ⟨before, after, hfiles, hbefore⟩ := hg.first
    rw [List.find?_eq_some_iff_append]
    exact ⟨by simp [hg.relative], before, after, hfiles, fun h hh => by simpa using hbefore h hh⟩
  simp only [resolve?, hname, if_neg hne, hfind]
  rfl

/-- The path below the root of a file whose path is a text, if it is not empty and has no blank at its
ends, is looked up as it is. -/
theorem plain_of_relativePath? (habs : s.root.isAbsolute = true) (hback : '\\' ∉ full.toList)
    (h : s.relativePath? (.ofString full) = some r) (hne : r ≠ "") (hstarts : StartsTight r.toList)
    (hends : EndsTight r.toList) : Plain r := by
  obtain ⟨rest, hstrip, hrest⟩ := Option.map_eq_some_iff.mp h
  obtain ⟨r', rfl, hsub, hfront⟩ := exists_text_of_strip? habs hstrip
  have hback' : '\\' ∉ r'.toList := fun hmem =>
    (List.mem_cons.mp (hsub hmem)).elim (by decide) hback
  rw [shown_ofString, forwardSlashes_eq_self hback'] at hrest
  subst hrest
  exact ⟨hne, hstarts, hends, hback', hfront⟩

end Snapshot

/-! ## 3. What is built -/

namespace Finder

open Snapshot

variable {f : Finder} {g : SourceFile} {name name' full r : String}

/-- What is built depends on the file that the name stands for, if there is one. -/
theorem build_congr {p : Path} (h : f.resolveRoot? (.ofString name) = some p)
    (h' : f.resolveRoot? (.ofString name') = some p) : f.build name = f.build name' := by
  unfold build build? rootNode
  rw [h, h', Option.getD_some, Option.getD_some]

/-- Every spelling stands for the file. -/
theorem resolveRoot?_of_spelling (hm : f.InMemory) (habs : f.snapshot.root.isAbsolute = true)
    (hg : f.snapshot.IsFirst r g) (hfull : g.path = .ofString full) (hr : Plain r)
    (hs : Spelling r full name) : f.resolveRoot? (.ofString name) = some g.path := by
  have hrelative {name : String} (hname : (Path.ofString name).isAbsolute = false)
      (hwanted : wantedName name = r) : f.resolveRoot? (.ofString name) = some g.path := by
    rw [resolveRoot?_of_not_isAbsolute hname, resolve?_of_isFirst hg hr.ne_empty hwanted]
    rfl
  cases hs with
  | relative =>
    exact hrelative (isAbsolute_ofString_eq_false (hr.front [] (by simp))) (wantedName_self hr)
  | dotted =>
    refine hrelative (isAbsolute_ofString_eq_false fun cs heq => ?_) (wantedName_dotted hr)
    rw [String.toList_append] at heq
    exact absurd (List.cons.inj heq).1 (by decide)
  | @padded left right hleft hright =>
    refine hrelative (isAbsolute_ofString_eq_false fun cs heq => ?_)
      (wantedName_padded hr hleft hright)
    rw [String.toList_append, String.toList_append, List.append_assoc] at heq
    cases hchars : left.toList with
    | nil =>
      obtain ⟨c, ds, hds⟩ := List.exists_cons_of_ne_nil hr.toList_ne_nil
      rw [hchars, hds] at heq
      rw [(List.cons.inj heq).1] at hds
      exact hr.front [] (by simp) ds hds
    | cons c ds =>
      rw [hchars] at heq
      have hblank := hleft c (hchars ▸ List.mem_cons_self)
      rw [(List.cons.inj heq).1] at hblank
      exact absurd hblank (by decide)
  | absolute =>
    have hmem := List.mem_map_of_mem (f := SourceFile.path) hg.mem
    have habs' := hm.isAbsolute habs _ hmem
    rw [hfull] at habs'
    obtain ⟨q, hq, hsame⟩ := resolveRoot?_of_isAbsolute habs' hmem (hfull ▸ Same.refl _)
    rw [hq, hm.apart.eq_of_same (mem_of_resolveRoot? hq) hmem (hfull ▸ hsame)]

/-- **A file is found under every spelling of its name.** Let `r` be the path of a file below an absolute
root, and no file before it have the same. If the whole path is a text without backslashes and `r` is
not empty and has no blank at its ends, then `r` stands for this file, whatever other files are called;
and `r`, `r` behind `./`, `r` among blanks and the whole path build the same tree for this file with the
same counts, or fail alike. -/
theorem build_eq_of_spelling (hm : f.InMemory) (habs : f.snapshot.root.isAbsolute = true)
    (hg : f.snapshot.IsFirst r g) (hfull : g.path = .ofString full) (hback : '\\' ∉ full.toList)
    (hne : r ≠ "") (hstarts : StartsTight r.toList) (hends : EndsTight r.toList)
    (hs : Spelling r full name) :
    f.snapshot.resolve? r = some g ∧ f.build name = f.build r ∧
      ∀ e, f.build name = .ok e → e.rootPath = some g.path ∧ e.root.file = g.path := by
  have hr := plain_of_relativePath? habs hback (hfull ▸ hg.relative) hne hstarts hends
  have hname := resolveRoot?_of_spelling hm habs hg hfull hr hs
  have hself := resolveRoot?_of_spelling hm habs hg hfull hr .relative
  refine ⟨resolve?_of_isFirst hg hne (wantedName_self hr), build_congr hname hself, fun e hb => ?_⟩
  rw [rootPath_of_build hb, file_root_of_build hb, file_rootNode_of_eq_some hname]
  exact ⟨hname, rfl⟩

/-! ## A file name that is also a relative path -/

/-- Files below `/p`: the first has the path below the root of the second for its file name. -/
def nameBeforePath : Finder :=
  ofTexts "/p" [("x/a.ts", ""), ("a.ts", ""), ("b.ts", "import './a'")]

theorem isFirst_nameBeforePath :
    nameBeforePath.snapshot.IsFirst "a.ts" ⟨.ofString "/p/a.ts", ""⟩ :=
  ⟨by decide +kernel, [⟨.ofString "/p/x/a.ts", ""⟩], [⟨.ofString "/p/b.ts", "import './a'"⟩],
    by decide +kernel, by decide +kernel⟩

/-- Its name in four spellings builds one tree for the second file, though the first file comes before it
and has that name. -/
theorem build_eq_of_spelling_nameBeforePath :
    nameBeforePath.snapshot.resolve? "a.ts" = some ⟨.ofString "/p/a.ts", ""⟩ ∧
      nameBeforePath.build "./a.ts" = nameBeforePath.build "a.ts" ∧
      nameBeforePath.build ("\t " ++ "a.ts" ++ "\u00A0") = nameBeforePath.build "a.ts" ∧
      nameBeforePath.build "/p/a.ts" = nameBeforePath.build "a.ts" := by
  have hstarts : StartsTight "a.ts".toList := fun c hc => by
    obtain rfl := Option.some.inj hc
    decide
  have hends : EndsTight "a.ts".toList := fun c hc => by
    obtain rfl := Option.some.inj hc
    decide
  have htheorem {name : String} (hs : Spelling "a.ts" "/p/a.ts" name) :=
    build_eq_of_spelling (inMemory_ofTexts _ _) (by decide +kernel) isFirst_nameBeforePath rfl
      (by decide) (by decide) hstarts hends hs
  have hpadded : Spelling "a.ts" "/p/a.ts" ("\t " ++ "a.ts" ++ "\u00A0") :=
    .padded (List.all_eq_true.mp (by decide)) (List.all_eq_true.mp (by decide))
  exact ⟨(htheorem .relative).1, (htheorem .dotted).2.1, (htheorem hpadded).2.1,
    (htheorem .absolute).2.1⟩

end Finder
end Citator

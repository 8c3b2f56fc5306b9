import Citator.Proofs.Citation.Extensions
import Citator.Proofs.Path.Strip

/-!
# `Citator.Proofs.Citation.Stem` — the stem of a file, found in two ways

A file can be asked for by its stem, and it is searched for by its token. The stem is the name up to its last
dot, whatever the extensions are, and a dot in front of a name does not count. The token is the name without
an extension that is configured, whatever dots there are. Were they different, then a file would be found
under one word and looked for in the texts under another.

They are the same where the configured extensions have no dots (`token_eq_stem`). Behind the dot of a
configured extension there is no other, so this dot is the last one; and it is not in front, if there is
anything before it at all.
-/

namespace Citator

/-! ## 1. The last dot of a name -/

namespace Path

variable {front back n : Bytes}

theorem cutAtLastDot?_of_dot_not_mem (h : dot ∉ back) : cutAtLastDot? back = none := by
  induction back with
  | nil => rfl
  | cons b bs ih =>
    rw [List.mem_cons, not_or] at h
    obtain ⟨hb, hbs⟩ := h
    rw [cutAtLastDot?, ih hbs]
    exact if_neg (Ne.symm hb)

theorem cutAtLastDot?_append (h : dot ∉ back) :
    cutAtLastDot? (front ++ dot :: back) = some (front, back) := by
  induction front with
  | nil =>
    rw [List.nil_append, cutAtLastDot?, cutAtLastDot?_of_dot_not_mem h]
    exact if_pos rfl
  | cons b front ih =>
    rw [List.cons_append, cutAtLastDot?, ih]

/-- The stem of a name is what stands before its last dot, if anything does. -/
theorem stemOfName_append (h : dot ∉ back) (hne : front ≠ []) :
    stemOfName (front ++ dot :: back) = front := by
  obtain ⟨b, bs, rfl⟩ := List.exists_cons_of_ne_nil hne
  unfold stemOfName
  rw [cutAtLastDot?_append h]

end Path

theorem Utf8.encode_ne_nil {stem : String} (h : stem ≠ "") : Utf8.encode stem ≠ [] := by
  intro hnil
  have hdecode := Utf8.decode?_encode stem
  rw [hnil, Utf8.decode?_nil, Option.some.injEq] at hdecode
  exact h hdecode.symm

/-! ## 2. The token of a name -/

namespace Citation

variable {exts : List String} {e name stem : String}

/-- Extensions without dots are flat. -/
theorem flat_of_dot_not_mem (h : ∀ e ∈ exts, '.' ∉ e.toList) : Flat exts := by
  intro e he e' _ hsuffix
  apply h e he
  apply hsuffix.subset
  simp

/-- Of flat extensions the one that a name ends in is cut off. -/
theorem Flat.stemOf (hflat : Flat exts) (he : e ∈ exts) (hname : name = stem ++ "." ++ e) :
    StemOf exts name stem := by
  obtain ⟨stem', hstem'⟩ := exists_stemOf exts name
  cases hstem' with
  | @cut before after e' _ hexts hbefore hname' =>
    have he' : e' ∈ exts := by simp [hexts]
    have hsame : e' = e := hflat.eq_of_fits he' he (fits_of_eq hname') (fits_of_eq hname)
    subst hsame
    exact .cut hexts hbefore hname
  | whole hnone => exact absurd (fits_of_eq hname) (hnone e he)

/-- A name that ends in a dot and an extension, split before the dot. -/
theorem exists_eq_of_fits (h : ("." ++ e).toList <:+ name.toList) :
    ∃ stem, name = stem ++ "." ++ e := by
  obtain ⟨cs, hcs⟩ := h
  refine ⟨String.ofList cs, ?_⟩
  rw [← String.toList_inj, ← hcs, String.append_assoc, String.toList_append (s := String.ofList cs),
    String.toList_ofList]

end Citation

/-! ## 3. Looking a stem up -/

namespace Snapshot

variable {s : Snapshot} {f : SourceFile} {before after : List SourceFile} {name stem : String}

/-- The name can only be a stem: no file has it for its path below the root or for its file name. -/
def AsksForStem (s : Snapshot) (name : String) : Prop :=
  ∀ g ∈ s.files, s.relativePath? g.path ≠ some (wantedName name) ∧
    g.path.fileName?.bind Utf8.decode? ≠ some (wantedName name)

instance (s : Snapshot) (name : String) : Decidable (s.AsksForStem name) :=
  inferInstanceAs (Decidable (∀ _ ∈ _, _))

theorem AsksForStem.resolve?_eq (h : s.AsksForStem name) (hne : wantedName name ≠ "") :
    s.resolve? name = s.files.find? fun g => g.stem? == some (wantedName name) := by
  have hrelative : (s.files.find? fun g => s.relativePath? g.path == some (wantedName name)) = none := by
    rw [List.find?_eq_none]
    intro g hg
    simpa using (h g hg).1
  have hfile : (s.files.find? fun g =>
      g.path.fileName?.bind Utf8.decode? == some (wantedName name)) = none := by
    rw [List.find?_eq_none]
    intro g hg
    simpa using (h g hg).2
  simp only [resolve?, if_neg hne, hrelative, hfile]
  rfl

/-- A name that can only be a stem stands for the first file with this stem. -/
theorem AsksForStem.resolve?_eq_some_iff (h : s.AsksForStem name)
    (hfiles : s.files = before ++ f :: after) (hbefore : ∀ g ∈ before, g.stem? ≠ some stem)
    (hstem : f.stem? = some stem) (hne : stem ≠ "") :
    s.resolve? name = some f ↔ wantedName name = stem := by
  constructor
  · intro hfound
    by_cases hempty : wantedName name = ""
    · simp [resolve?, hempty] at hfound
    · rw [h.resolve?_eq hempty] at hfound
      have hwanted := List.find?_some hfound
      rw [beq_iff_eq, hstem, Option.some.injEq] at hwanted
      exact hwanted.symm
  · intro hwanted
    subst hwanted
    rw [h.resolve?_eq hne, List.find?_eq_some_iff_append]
    refine ⟨by simp [hstem], before, after, hfiles, ?_⟩
    intro g hg
    simpa using hbefore g hg

end Snapshot

/-! ## 4. Token and stem -/

section Stem

open Extension (kept)

variable {exts : List String} {f : SourceFile} {name stem e : String}

theorem Citation.token_of_fits (hdots : ∀ e ∈ exts, '.' ∉ e.toList)
    (hname : f.path.fileName?.bind Utf8.decode? = some name) (he : e ∈ exts)
    (hsplit : name = stem ++ "." ++ e) (hne : stem ≠ "") :
    Citation.token exts f.path = .ok stem := by
  obtain ⟨bytes, hbytes, hdecode⟩ := Option.bind_eq_some_iff.mp hname
  have hshown : Citation.nameShown f.path = name := by
    rw [Citation.nameShown, hbytes, Option.map_some, Option.getD_some, Utf8.lossy_of_decode? hdecode]
  rw [Citation.token_eq_ok_iff, hshown]
  exact ⟨(Citation.flat_of_dot_not_mem hdots).stemOf he hsplit, hne⟩

theorem SourceFile.stem?_of_fits (hdot : '.' ∉ e.toList)
    (hname : f.path.fileName?.bind Utf8.decode? = some name) (hsplit : name = stem ++ "." ++ e)
    (hne : stem ≠ "") : f.stem? = some stem := by
  obtain ⟨bytes, hbytes, hdecode⟩ := Option.bind_eq_some_iff.mp hname
  have hform : bytes = Utf8.encode stem ++ Path.dot :: Utf8.encode e := by
    rw [← Utf8.decode?_eq_some_iff.mp hdecode, hsplit, Utf8.encode_append, Utf8.encode_append,
      List.append_assoc]
    rfl
  have hcut : Path.stemOfName bytes = Utf8.encode stem := by
    have hback : Path.dot ∉ Utf8.encode e := Utf8.not_mem_encode rfl (by decide) hdot
    rw [hform]
    exact Path.stemOfName_append hback (Utf8.encode_ne_nil hne)
  rw [SourceFile.stem?, Path.fileStem?, hbytes, Option.map_some, Option.bind_some, hcut,
    Utf8.decode?_encode]

theorem Snapshot.exists_citations_of_token (s : Snapshot)
    (h : Citation.token (kept exts) f.path = .ok stem) :
    ∃ found, s.citations exts f.path = .ok ⟨stem, found⟩ := by
  simp only [Snapshot.citations, h]
  exact ⟨_, rfl⟩

/-- **The token of a file is its stem**, where no configured extension has a dot in it. If the name of a file
is a text that ends in a dot and an extension, with something before them, then what stands before them is
both what is searched for and what the file is found under: the files that refer to it are searched for by
this word, and a name that can only be a stem stands for the file just if it is this word, unless another
file has the stem before it. -/
theorem token_eq_stem (hdots : ∀ e ∈ kept exts, '.' ∉ e.toList)
    (hname : f.path.fileName?.bind Utf8.decode? = some name) (he : e ∈ kept exts)
    (hends : ("." ++ e).toList <:+ name.toList) (hlonger : ("." ++ e).length < name.length) :
    ∃ stem, name = stem ++ "." ++ e ∧ Citation.token (kept exts) f.path = .ok stem ∧
      f.stem? = some stem ∧ ∀ s : Snapshot,
        (∃ found, s.citations exts f.path = .ok ⟨stem, found⟩) ∧
        ∀ before after, s.files = before ++ f :: after → (∀ g ∈ before, g.stem? ≠ some stem) →
          ∀ wanted, s.AsksForStem wanted →
            (s.resolve? wanted = some f ↔ Snapshot.wantedName wanted = stem) := by
  obtain ⟨stem, hsplit⟩ := Citation.exists_eq_of_fits hends
  have hne : stem ≠ "" := by
    rintro rfl
    rw [hsplit, String.empty_append] at hlonger
    exact absurd hlonger (Nat.lt_irrefl _)
  have htoken := Citation.token_of_fits hdots hname he hsplit hne
  have hstem := SourceFile.stem?_of_fits (hdots e he) hname hsplit hne
  refine ⟨stem, hsplit, htoken, hstem, ?_⟩
  intro s
  refine ⟨s.exists_citations_of_token htoken, ?_⟩
  intro before after hfiles hbefore wanted hasks
  exact hasks.resolve?_eq_some_iff hfiles hbefore hstem hne

/-- A file below `/p` whose name has dots in front and a dot inside, and one that refers to it. -/
def dottedName : Snapshot :=
  ⟨.ofString "/p", [⟨.ofString "/p/b.ts", "import '..a.b'"⟩, ⟨.ofString "/p/x/..a.b.ts", ""⟩], []⟩

/-- Whatever the order of the extensions is, the file is asked for and searched for as `..a.b`. -/
theorem token_eq_stem_dottedName :
    Citation.token (kept ["vue", ".ts"]) (.ofString "/p/x/..a.b.ts") = .ok "..a.b" ∧
      (SourceFile.mk (.ofString "/p/x/..a.b.ts") "").stem? = some "..a.b" ∧
      dottedName.resolve? " ..a.b" = some ⟨.ofString "/p/x/..a.b.ts", ""⟩ := by
  have hkept : kept ["vue", ".ts"] = ["vue", "ts"] := by decide +kernel
  have hdots : ∀ e ∈ kept ["vue", ".ts"], '.' ∉ e.toList := by
    rw [hkept]
    decide
  have hts : "ts" ∈ kept ["vue", ".ts"] := by
    rw [hkept]
    decide
  have hname : (SourceFile.mk (.ofString "/p/x/..a.b.ts") "").path.fileName?.bind Utf8.decode? =
      some "..a.b.ts" := by decide +kernel
  obtain ⟨stem, hsplit, htoken, hstem, hall⟩ := token_eq_stem hdots hname hts (by decide) (by decide)
  have hab : stem = "..a.b" := by
    have hchars : "..a.b".toList ++ ".ts".toList = stem.toList ++ ".ts".toList := by
      rw [← String.toList_append, ← String.toList_append, String.toList_inj]
      rwa [String.append_assoc] at hsplit
    exact (String.toList_inj.mp (List.append_cancel_right hchars)).symm
  subst hab
  have hresolve := (hall dottedName).2 [⟨.ofString "/p/b.ts", "import '..a.b'"⟩] [] rfl
    (by decide +kernel) " ..a.b" (by decide +kernel)
  exact ⟨htoken, hstem, hresolve.mpr (by decide +kernel)⟩

end Stem

end Citator

import Citator.Proofs.Corpus.Extension
import Citator.Proofs.Corpus.ExtensionGlob
import Citator.Proofs.Path.Display
import Citator.Proofs.Path.Sameness
import Citator.Proofs.Scan.Walk

/-!
# `Citator.Proofs.Scan.Files` — the source files below a directory

A scan is asked for the source files below a root. Which those are depends on the tree alone: a source file is
reached through directories, never through a link; its name ends in a dot and an extension, where it is the
name that counts and not the path that the glob is asked about; and if hidden entries do not count, neither
it nor a directory on the way to it is hidden. Ignore files have no part in it, unless they are asked for.

The paths that come out are the root joined with the names. As names in a directory hold no separator and are
never `.` or `..`, the names are still there in the path, as the components behind those of the root.
-/

namespace Citator

/-! ## 1. Paths below a root -/

namespace Path

variable {b : UInt8} {w u v : Bytes} {ns ms : List Bytes} {p : Path}

theorem suffix_append_cons_iff (hb : b ∉ w) : w <:+ u ++ b :: v ↔ w <:+ v := by
  constructor
  · intro h
    cases List.suffix_or_suffix_of_suffix h (List.suffix_append u (b :: v)) with
    | inl hshort =>
      cases List.suffix_cons_iff.mp hshort with
      | inl heq => exact absurd (heq ▸ List.mem_cons_self) hb
      | inr hsuffix => exact hsuffix
    | inr hlong => exact absurd (hlong.subset List.mem_cons_self) hb
  · intro h
    exact h.trans ((List.suffix_cons b v).trans (List.suffix_append u (b :: v)))

/-- An ending without a separator is one of the last name. -/
theorem suffix_unite_iff (hslash : slash ∉ w) (hne : w ≠ []) (ns : List Bytes) :
    w <:+ unite ns ↔ ∃ n ∈ ns.getLast?, w <:+ n := by
  induction ns with
  | nil => simp [unite, hne]
  | cons n ns ih =>
    cases ns with
    | nil => simp [unite]
    | cons m ms => rw [unite_cons_cons, suffix_append_cons_iff hslash, ih, List.getLast?_cons_cons]

theorem components_unite_of_isName (h : ∀ n ∈ ns, IsName n) :
    (mk (unite ns)).components = ns.map .name := by
  have hslash : ∀ n ∈ ns, slash ∉ n := fun n hn => (h n hn).slash_not_mem
  have hfirst : ∀ n, ns.head? = some n → isTrivial n = false := by
    intro n hn
    rw [isTrivial, (h n (List.mem_of_mem_head? hn)).ordinary]
    rfl
  rw [components_unite hslash hfirst]
  exact List.filterMap_eq_map_iff_forall_eq_some.mpr fun n hn => (h n hn).ordinary

theorem first?_unite_of_isName (h : ∀ n ∈ ns, IsName n) : (mk (unite ns)).first? = none := by
  have hnames := components_unite_of_isName h
  rw [components_eq] at hnames
  cases hfirst : (mk (unite ns)).first? with
  | none => rfl
  | some c =>
    -- neither the root nor a `.` in front is a name
    have hc : c ∈ ns.map Component.name := by
      rw [← hnames, hfirst]
      exact List.mem_cons_self
    obtain ⟨n, -, rfl⟩ := List.mem_map.mp hc
    exact absurd hfirst (first?_ne_name _ n)

/-- The path of a file below a root has the components of the root, and then the names. -/
theorem components_join_unite (hp : p.bytes ≠ []) (h : ∀ n ∈ ns, IsName n) :
    (p.join ⟨unite ns⟩).components = p.components ++ ns.map .name := by
  rw [components_join hp (first?_unite_of_isName h), components_unite_of_isName h]

end Path

/-! ## 2. Source files -/

namespace Extension

variable {exts : List String}

theorem plain_of_mem_normalize (h : ∀ ext ∈ exts, ∀ c ∈ ext.toList, Glob.isPlain c = true ∧ c ≠ '/') :
    ∀ e ∈ normalize exts, Plain e ∧ '/' ∉ e.toList := by
  intro e he
  obtain ⟨hne, ext, hext, rfl⟩ := mem_normalize_iff.mp he
  have hchars : ∀ c ∈ (bare ext).toList, Glob.isPlain c = true ∧ c ≠ '/' := by
    intro c hc
    rw [toList_bare] at hc
    exact h ext hext c ((Text.trimmed_sublist _).subset ((List.dropWhile_sublist _).subset hc))
  refine ⟨⟨hne, fun c hc => (hchars c hc).1⟩, ?_⟩
  intro hslash
  exact (hchars _ hslash).2 rfl

/-- Below a directory the glob of some extensions asks for the ending of a file name. -/
theorem exists_glob_names (hne : exts ≠ []) (h : ∀ e ∈ exts, Plain e ∧ '/' ∉ e.toList) :
    ∃ g, Extension.glob exts = .ok g ∧ ∀ ns, g.isMatch ⟨Path.unite ns⟩ = true ↔
      ∃ n ∈ ns.getLast?, ∃ e ∈ exts, Path.dot :: Utf8.encode e <:+ n := by
  obtain ⟨text, ts, hglob, hlang⟩ := exists_glob hne fun e he => (h e he).1
  refine ⟨_, hglob, ?_⟩
  intro ns
  have hslash : ∀ e ∈ exts, Path.slash ∉ Path.dot :: Utf8.encode e := by
    intro e he
    rw [List.mem_cons, not_or]
    exact ⟨by decide, Utf8.not_mem_encode rfl (by decide) (h e he).2⟩
  rw [Glob.isMatch_iff, or_iff_right (by simp), mem_seqLang_front]
  constructor
  · intro hmatch
    obtain ⟨v, hv, hsuffix⟩ := hmatch
    obtain ⟨e, he, rfl⟩ := (hlang v).mp hv
    obtain ⟨n, hn, hend⟩ := (Path.suffix_unite_iff (hslash e he) (List.cons_ne_nil _ _) ns).mp hsuffix
    exact ⟨n, hn, e, he, hend⟩
  · intro hend
    obtain ⟨n, hn, e, he, hsuffix⟩ := hend
    refine ⟨_, (hlang _).mpr ⟨e, he, rfl⟩, ?_⟩
    exact (Path.suffix_unite_iff (hslash e he) (List.cons_ne_nil _ _) ns).mpr ⟨n, hn, hsuffix⟩

end Extension

/-- The names below a directory that lead to a source file: through directories only, with one of the
extensions at the end of the last, and if hidden entries do not count, with a dot in front of none. -/
structure IsSource (entries : Directory) (exts : List String) (hidden : Bool) (ns : List Bytes) : Prop where
  leads : (Entry.dir entries).Leads ns
  ending : ∃ n ∈ ns.getLast?, ∃ e ∈ exts, Path.dot :: Utf8.encode e <:+ n
  shown : hidden = true ∨ ∀ n ∈ ns, n.head? ≠ some Path.dot

namespace Scanner

variable {d : Disk} {root : Path} {rootNames : List Bytes} {entries : Directory} {exts : List String}

theorem bytes_ne_nil_of_locate {l : Located} (h : d.locate root = .ok l) : root.bytes ≠ [] := by
  intro hnil
  unfold Disk.locate at h
  rw [hnil] at h
  simp at h

theorem ofOptions_of_locate {options : ScanOptions} {g : Glob}
    (hroot : d.locate root = .ok (.directory rootNames entries))
    (hglob : Extension.glob (Extension.normalize options.extensions) = .ok g) :
    Scanner.ofOptions d root options =
      .ok ⟨root, g, options.respectIgnores, options.includeHidden⟩ := by
  have hdir : d.isDirectory root = true := by
    unfold Disk.isDirectory
    rw [hroot]
  unfold Scanner.ofOptions
  rw [if_pos hdir, hglob]
  rfl

theorem lists_iff_isSource {s : Scanner} {ns : List Bytes}
    (hmatch : ∀ ns, s.glob.isMatch ⟨Path.unite ns⟩ = true ↔
      ∃ n ∈ ns.getLast?, ∃ e ∈ exts, Path.dot :: Utf8.encode e <:+ n) :
    s.Lists [] (.dir entries) ns ↔ IsSource entries exts s.includeHidden ns := by
  constructor
  · intro h
    obtain ⟨rest, rfl, hleads, hshows, hfits⟩ := h
    refine ⟨hleads, (hmatch _).mp hfits, ?_⟩
    cases hhidden : s.includeHidden with
    | true => exact Or.inl rfl
    | false => exact Or.inr fun n hn => (hshows n hn).resolve_left (by simp [hhidden])
  · intro h
    refine ⟨ns, rfl, h.leads, ?_, (hmatch ns).mpr h.ending⟩
    intro n hn
    exact h.shown.imp_right fun hall => hall n hn

/-- **A scan lists the source files**, each once, ordered by their names below the root, directory by
directory. Let the root lead to a directory that is a tree, and let the extensions hold nothing that means
something in a glob and no separator, and not all of them be empty. Then a scanner that does not mind ignore
files can be had, and what it lists, without an error, are the paths of the source files below the root and no
others. -/
theorem list_exact (hroot : d.locate root = .ok (.directory rootNames entries))
    (hwf : (Entry.dir entries).WellFormed)
    (hplain : ∀ ext ∈ exts, ∀ c ∈ ext.toList, Glob.isPlain c = true ∧ c ≠ '/')
    (hne : Extension.normalize exts ≠ []) (hidden : Bool) :
    ∃ (s : Scanner) (names : List (List Bytes)), Scanner.ofOptions d root
        { extensions := exts, respectIgnores := false, includeHidden := hidden } = .ok s ∧
      s.list d = .ok (names.map fun ns => root.join ⟨Path.unite ns⟩) ∧
      (∀ ns, ns ∈ names ↔ IsSource entries (Extension.normalize exts) hidden ns) ∧
      names.Pairwise (· < ·) ∧
      (∀ ns ∈ names, (root.join ⟨Path.unite ns⟩).components = root.components ++ ns.map .name) ∧
      Path.Apart (names.map fun ns => root.join ⟨Path.unite ns⟩) := by
  obtain ⟨g, hglob, hmatch⟩ := Extension.exists_glob_names hne (Extension.plain_of_mem_normalize hplain)
  let s : Scanner := ⟨root, g, false, hidden⟩
  have hmem : ∀ ns, ns ∈ s.names d ↔ IsSource entries (Extension.normalize exts) hidden ns := by
    intro ns
    rw [mem_names_iff rfl hroot]
    exact lists_iff_isSource hmatch
  have horder : (s.names d).Pairwise (· < ·) := pairwise_names rfl hroot hwf
  have hcomponents : ∀ ns ∈ s.names d,
      (root.join ⟨Path.unite ns⟩).components = root.components ++ ns.map .name := by
    intro ns hns
    exact Path.components_join_unite (bytes_ne_nil_of_locate hroot)
      (hwf.isName_of_leads ((hmem ns).mp hns).leads)
  refine ⟨s, s.names d, ofOptions_of_locate hroot hglob, list_eq rfl, hmem, horder, hcomponents, ?_⟩
  -- paths below one root that are the same have the same names, and those come once
  refine List.pairwise_map.mpr (horder.imp_of_mem ?_)
  intro ns ms hns hms hlt hsame
  have hnames : root.components ++ ns.map .name = root.components ++ ms.map .name := by
    rw [← hcomponents ns hns, ← hcomponents ms hms]
    exact hsame
  have heq : ns = ms := by
    refine List.map_injective_iff.mpr ?_ (List.append_cancel_left hnames)
    intro n m hnm
    exact Path.Component.name.inj hnm
  rw [heq] at hlt
  exact absurd hlt (List.lt_irrefl ms)

/-! ## A tree with a link, a hidden directory and an ignore file -/

/-- Sources in a directory, beside it, in a hidden directory and behind a link, and an ignore file that is
about all of them. -/
def scattered : Disk :=
  let few := (({} : Disk).insert (.ofString "/p/a-b.ts") (.file [])).insert (.ofString "/p/a/x.ts") (.file [])
  ((few.insert (.ofString "/p/l.ts") (.link (.ofString "a-b.ts"))).insert (.ofString "/p/.h/c.ts")
    (.file [])).insert (.ofString "/p/.gitignore") (.file (Utf8.encode "*.ts"))

/-- What lies in the directory `/p`. -/
def scatteredEntries : Directory :=
  [(Utf8.encode "a-b.ts", .file []), (Utf8.encode "a", .dir [(Utf8.encode "x.ts", .file [])]),
    (Utf8.encode "l.ts", .link (.ofString "a-b.ts")),
    (Utf8.encode ".h", .dir [(Utf8.encode "c.ts", .file [])]),
    (Utf8.encode ".gitignore", .file (Utf8.encode "*.ts"))]

theorem wellFormed_scattered : scattered.WellFormed :=
  ((((Disk.wellFormed_empty.insert _ (.file _)).insert _ (.file _)).insert _ (.link _)).insert _
    (.file _)).insert _ (.file _)

theorem locate_scattered : scattered.locate (.ofString "/p") =
    .ok (.directory [Utf8.encode "p"] scatteredEntries) := rfl

/-- The file in the directory is listed before the one beside it, though its path has the greater text. The
one behind the link and the one in the hidden directory are not listed. -/
theorem list_exact_scattered : ∃ (s : Scanner) (names : List (List Bytes)),
    Scanner.ofOptions scattered (.ofString "/p")
      { extensions := [".ts"], respectIgnores := false, includeHidden := false } = .ok s ∧
    s.list scattered = .ok (names.map fun ns => Path.join (.ofString "/p") ⟨Path.unite ns⟩) ∧
    names.Pairwise (· < ·) ∧
    [Utf8.encode "a", Utf8.encode "x.ts"] ∈ names ∧ [Utf8.encode "a-b.ts"] ∈ names ∧
    [Utf8.encode "l.ts"] ∉ names ∧ [Utf8.encode ".h", Utf8.encode "c.ts"] ∉ names := by
  have hnormal : Extension.normalize [".ts"] = ["ts"] := by decide +kernel
  have hplain : ∀ ext ∈ [".ts"], ∀ c ∈ ext.toList, Glob.isPlain c = true ∧ c ≠ '/' := by
    intro ext hext c hc
    rw [List.mem_singleton.mp hext] at hc
    have hall : ∀ c ∈ ".ts".toList, (Glob.isPlain c && c != '/') = true :=
      List.all_eq_true.mp (by decide)
    simpa using hall c hc
  have hne : Extension.normalize [".ts"] ≠ [] := by
    rw [hnormal]
    exact List.cons_ne_nil _ _
  obtain ⟨s, names, hs, hlist, hmem, horder, -, -⟩ := list_exact locate_scattered
    (wellFormed_scattered.directory locate_scattered) hplain hne false
  refine ⟨s, names, hs, hlist, horder, ?_, ?_, ?_, ?_⟩
  · rw [hmem, hnormal]
    refine ⟨.dir (.tail _ (.head _)) (.dir (.head _) (.file _)), ?_, Or.inr (by decide)⟩
    exact ⟨_, rfl, "ts", List.mem_cons_self, by decide⟩
  · rw [hmem, hnormal]
    refine ⟨.dir (.head _) (.file _), ?_, Or.inr (by decide)⟩
    exact ⟨_, rfl, "ts", List.mem_cons_self, by decide⟩
  · rw [hmem]
    intro h
    cases h.leads with
    | dir hentry hrest =>
      cases hrest with
      | file content =>
        have hnames : Utf8.encode "l.ts" ≠ Utf8.encode "a-b.ts" ∧
            Utf8.encode "l.ts" ≠ Utf8.encode ".gitignore" := by decide
        simp [scatteredEntries, hnames] at hentry
  · rw [hmem]
    intro h
    exact absurd (h.shown.resolve_left (by simp)) (by decide)

end Scanner
end Citator

import Citator.Corpus.Basic
import Citator.Proofs.Glob.Reading

/-!
# `Citator.Proofs.Corpus.ExtensionGlob` — the glob of some extensions asks for an ending

The scanner chooses files by a glob: `**/*.ts` for one extension, and `**/*.` with a group behind it for
several. The part in front of the dot stands for anything at all, since nothing has to be taken for
directories and a star crosses separators here. So whatever the two texts look like, and wherever a path
has its separators, dots and line feeds, the glob asks whether the path ends with a dot and one of the
extensions.

For that the extensions have to be plain. In any other a star, a comma or a brace is read as what it means
in a glob; and an empty extension is a branch with nothing in it, which is no branch.
-/

namespace Citator.Extension

open Glob

variable {e : String} {es exts : List String} {cs : List Char} {ts : List Token} {w : Bytes}

/-- An extension that a glob takes as it is. -/
structure Plain (e : String) : Prop where
  ne_empty : e ≠ ""
  chars : ∀ c ∈ e.toList, isPlain c = true

/-! ## 1. The front of the glob -/

/-- The reader behind `**/*.` -/
def behindDot : Reader := { tokens := [.literal '.', .anyRun, .leadingDirs], last := some '.' }

theorem read_front (cs : List Char) :
    Reader.read false {} ('*' :: '*' :: '/' :: '*' :: '.' :: cs) = Reader.read false behindDot cs := by
  have hdirs : Reader.readTwoStars {} ('/' :: '*' :: '.' :: cs) =
      (Reader.push {} .leadingDirs '/', '*' :: '.' :: cs) := rfl
  rw [Reader.read, hdirs]
  have hdot : isPlain '.' = true := by decide
  have hstar : ('.' :: cs).head? ≠ some '*' := by simp
  rw [Reader.read_star hstar, Reader.read_cons_plain hdot]
  rfl

/-- In front of the dot stands anything. -/
theorem mem_seqLang_front :
    w ∈ seqLang false (.leadingDirs :: .anyRun :: .literal '.' :: ts) ↔
      ∃ v ∈ seqLang false ts, Path.dot :: v <:+ w := by
  show w ∈ wholeDirs * (manyBytes (fun _ => true) * ({[Path.dot]} * seqLang false ts)) ↔ _
  constructor
  · rintro ⟨dirs, -, _, ⟨name, -, _, hending, rfl⟩, rfl⟩
    obtain ⟨v, hv, rfl⟩ := mem_singleton_mul.mp hending
    exact ⟨v, hv, dirs ++ name, List.append_assoc dirs name _⟩
  · rintro ⟨v, hv, front, rfl⟩
    have hending : Path.dot :: v ∈ ({[Path.dot]} : Language UInt8) * seqLang false ts :=
      (mem_singleton_mul (u := [Path.dot])).mpr ⟨v, hv, rfl⟩
    have hname : front ∈ manyBytes fun _ => true := fun _ _ => rfl
    exact Language.append_mem_mul (a := []) (Or.inl rfl) (Language.append_mem_mul hname hending)

/-! ## 2. The two forms of the glob -/

theorem tokensOf_eq_ok {text : String} {r : Reader} (h : Reader.read false {} text.toList = .ok r)
    (hgroups : r.groups = []) : tokensOf false text = .ok r.tokens.reverse := by
  have hfinish : r.finish = .ok r.tokens.reverse := by
    rw [Reader.finish, Reader.inGroup, hgroups]
    rfl
  have hbind : (Reader.read false {} text.toList).bind Reader.finish = .ok r.tokens.reverse := by
    rw [h]
    exact hfinish
  rw [tokensOf, hbind]

theorem mem_seqLang_singleton (t : Token) : w ∈ seqLang false [t] ↔ w ∈ t.lang false := by
  show w ∈ t.lang false * 1 ↔ _
  rw [mul_one]

theorem exists_tokensOf_one (h : Plain e) : ∃ ts,
    tokensOf false ("**/*." ++ e) = .ok (.leadingDirs :: .anyRun :: .literal '.' :: ts) ∧
      ∀ w, w ∈ seqLang false ts ↔ w = Utf8.encode e := by
  have hread : Reader.read false {} ("**/*." ++ e).toList = .ok (behindDot.pushAll e.toList) := by
    have hall : Reader.read false behindDot (e.toList ++ []) = _ := Reader.read_append_plain h.chars
    rw [List.append_nil, Reader.read] at hall
    rw [String.toList_append]
    exact (read_front e.toList).trans hall
  refine ⟨literalsOf e.toList, ?_, fun w => mem_seqLang_literalsOf false e.toList⟩
  rw [tokensOf_eq_ok hread (Reader.pushAll_groups _ _), Reader.pushAll_tokens, List.reverse_append,
    List.reverse_reverse]
  rfl

theorem exists_tokensOf_many (hne : es ≠ []) (h : ∀ e ∈ es, Plain e) : ∃ ts,
    tokensOf false ("**/*.\x7b" ++ String.intercalate "," es ++ "\x7d") =
        .ok (.leadingDirs :: .anyRun :: .literal '.' :: ts) ∧
      ∀ w, w ∈ seqLang false ts ↔ ∃ e ∈ es, w = Utf8.encode e := by
  have hbs : es.map String.toList ≠ [] := mt List.map_eq_nil_iff.mp hne
  have hplain : ∀ b ∈ es.map String.toList, ∀ c ∈ b, isPlain c = true :=
    List.forall_mem_map.mpr fun e he => (h e he).chars
  have hnonempty : ∀ b ∈ es.map String.toList, b ≠ [] :=
    List.forall_mem_map.mpr fun e he => mt String.toList_eq_nil_iff.mp (h e he).ne_empty
  obtain ⟨r, hread, hgroups, htokens⟩ := Reader.read_branches false [] (r := behindDot.openGroup) hbs
    hplain rfl rfl
  have htext : ("**/*.\x7b" ++ String.intercalate "," es ++ "\x7d").toList =
      '*' :: '*' :: '/' :: '*' :: '.' :: '\x7b' ::
        ([','].intercalate (es.map String.toList) ++ ['\x7d']) := by
    rw [String.toList_append, String.toList_append, String.toList_intercalate]
    rfl
  have hall : Reader.read false {} ("**/*.\x7b" ++ String.intercalate "," es ++ "\x7d").toList = .ok r := by
    rw [htext, read_front, Reader.read_openGroup, hread, Reader.read]
  refine ⟨[.choice ((es.map String.toList).map literalsOf)], ?_, fun w => ?_⟩
  · rw [tokensOf_eq_ok hall hgroups, htokens]
    rfl
  · rw [mem_seqLang_singleton, mem_lang_choice_literalsOf false hbs hnonempty]
    simp [Utf8.encode, Path.bytesOf]

theorem glob_of_tokensOf {text : String} (htext : globText? exts = some text)
    (hts : tokensOf false text = .ok ts) : Extension.glob exts = .ok ⟨text, ts, false⟩ := by
  unfold Extension.glob Glob.ofString
  rw [htext]
  simp only [hts]
  rfl

/-- Both forms are globs, with the same front and the extensions behind it. -/
theorem exists_glob (hne : exts ≠ []) (h : ∀ e ∈ exts, Plain e) : ∃ text ts,
    Extension.glob exts = .ok ⟨text, .leadingDirs :: .anyRun :: .literal '.' :: ts, false⟩ ∧
      ∀ w, w ∈ seqLang false ts ↔ ∃ e ∈ exts, w = Utf8.encode e := by
  match exts with
  | [] => exact absurd rfl hne
  | [e] =>
    obtain ⟨ts, hts, hlang⟩ := exists_tokensOf_one (h e List.mem_cons_self)
    exact ⟨_, ts, glob_of_tokensOf rfl hts, fun w => by simp [hlang]⟩
  | e :: e' :: es =>
    obtain ⟨ts, hts, hlang⟩ := exists_tokensOf_many hne h
    exact ⟨_, ts, glob_of_tokensOf rfl hts, hlang⟩

/-! ## 3. What the glob asks for -/

/-- **The glob of some extensions matches the paths that end with a dot and one of them**, for one
extension and for several. For none there is no glob. -/
theorem isMatch_glob_iff_ending :
    Extension.glob [] = .error .noExtensions ∧
      ∀ exts, exts ≠ [] → (∀ e ∈ exts, Plain e) → ∃ g, Extension.glob exts = .ok g ∧
        ∀ p : Path, g.isMatch p = true ↔ ∃ e ∈ exts, Path.dot :: Utf8.encode e <:+ p.bytes := by
  refine ⟨rfl, fun exts hne h => ?_⟩
  obtain ⟨text, ts, hglob, hlang⟩ := exists_glob hne h
  refine ⟨_, hglob, fun p => ?_⟩
  rw [Glob.isMatch_iff, or_iff_right (by simp), mem_seqLang_front]
  simp only [hlang]
  constructor
  · rintro ⟨_, ⟨e, he, rfl⟩, hending⟩
    exact ⟨e, he, hending⟩
  · rintro ⟨e, he, hending⟩
    exact ⟨_, ⟨e, he, rfl⟩, hending⟩

/-- A hidden name that is nothing but an ending is matched, and an ending without its dot is not. -/
theorem isMatch_glob_iff_ending_ts : ∃ g, Extension.glob ["ts", "tsx"] = .ok g ∧
    g.isMatch (.ofString "src/.ts") = true ∧ g.isMatch (.ofString "src/ts") = false := by
  have hplain : ∀ e ∈ ["ts", "tsx"], Plain e := by
    have hts : Plain "ts" := ⟨by decide, List.all_eq_true.mp (by decide)⟩
    have htsx : Plain "tsx" := ⟨by decide, List.all_eq_true.mp (by decide)⟩
    simp [hts, htsx]
  obtain ⟨g, hg, hmatch⟩ := isMatch_glob_iff_ending.2 ["ts", "tsx"] (List.cons_ne_nil _ _) hplain
  refine ⟨g, hg, (hmatch _).mpr ⟨"ts", List.mem_cons_self, by decide⟩, ?_⟩
  rw [Bool.eq_false_iff, ne_eq, hmatch]
  decide

end Citator.Extension

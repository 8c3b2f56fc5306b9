import Mathlib.Computability.RegularExpressions
import Citator.Proofs.Citation.Referrers

/-!
# `Citator.Proofs.Citation.Pattern` — what a search finds

A search is for a token with an ending right behind it. The same is said a second time, as a regular
expression put together from the token and the extensions, and both of these come from people: every
character of them may be one that regular expressions give a meaning to.

A text *mentions* a stem if it holds one of a few words, the stem with an ending. There is nothing to
escape in that. The files that a search finds are those that mention the stem of its target, and they
are those in which its regular expression is found. For this the expression is read as the notation
has it: a backslash takes the meaning from the character behind it, `(?:` and `)` enclose branches
with bars between them, and characters in brackets stand for any one of them. Whatever else has a
meaning is not read at all.
-/

namespace Citator

namespace Citation

/-! ## 1. Occurrences -/

section Occurrences

variable {token text : List Char} {ends : List (List Char)}

/-- The token and the ending are looked for one behind the other; that is to say that they stand there
as one word. -/
theorem citesAtFront_iff :
    citesAtFront token ends text = true ↔ ∃ ending ∈ ends, token ++ ending <+: text := by
  unfold citesAtFront
  simp only [Bool.and_eq_true, List.any_eq_true, List.isPrefixOf_iff_prefix]
  constructor
  · intro h
    obtain ⟨⟨rest, rfl⟩, ending, hmem, hending⟩ := h
    rw [List.drop_left] at hending
    exact ⟨ending, hmem, (List.prefix_append_right_inj token).mpr hending⟩
  · intro h
    obtain ⟨ending, hmem, rest, rfl⟩ := h
    refine ⟨⟨ending ++ rest, (List.append_assoc ..).symm⟩, ending, hmem, rest, ?_⟩
    rw [List.append_assoc, List.drop_left]

/-- **A search is for words.** It goes from one place of the text to the next, the end included, and
looks at the front of what is left; a word that is in the text is at the front of some rest of it. -/
theorem cites_iff : cites token ends text = true ↔ ∃ ending ∈ ends, token ++ ending <:+: text := by
  induction text with
  | nil =>
    show citesAtFront token ends [] = true ↔ _
    rw [citesAtFront_iff]
    simp only [List.prefix_nil, List.infix_nil]
  | cons c cs ih =>
    show (citesAtFront token ends (c :: cs) || cites token ends cs) = true ↔ _
    simp only [Bool.or_eq_true, citesAtFront_iff, ih, List.infix_cons_iff, and_or_left, exists_or]

end Occurrences

/-! ## 2. The stem of a name -/

/-- A name without the first of the extensions that it ends in, and the whole name if there is
none. -/
inductive StemOf (exts : List String) (name : String) : String → Prop
  | cut {before after : List String} {e stem : String} (hexts : exts = before ++ e :: after)
      (hbefore : ∀ e' ∈ before, ¬ ("." ++ e').toList <:+ name.toList)
      (hname : name = stem ++ "." ++ e) : StemOf exts name stem
  | whole (h : ∀ e ∈ exts, ¬ ("." ++ e).toList <:+ name.toList) : StemOf exts name name

/-- Cutting an end off and putting it back are each other's inverses, which is all that is to be known
of the cutting. -/
theorem beforeEnd?_eq_some_iff {xs suffix front : List Char} :
    beforeEnd? xs suffix = some front ↔ xs = front ++ suffix := by
  unfold beforeEnd?
  constructor
  · intro h
    split at h
    · rename_i hsuffix
      obtain ⟨front', rfl⟩ := List.isSuffixOf_iff_suffix.mp hsuffix
      simpa using h
    · cases h
  · intro h
    subst h
    simp

theorem beforeEnd?_eq_none_iff {xs suffix : List Char} :
    beforeEnd? xs suffix = none ↔ ¬ suffix <:+ xs := by
  unfold beforeEnd?
  split
  · rename_i h
    simpa using List.isSuffixOf_iff_suffix.mp h
  · rename_i h
    simpa using h

/-- **The stem is what the search takes for the token.** The first extension that is found in the list
is the one that is cut off, and it is found at the end of the name with its dot. Where several would
do, as `d.ts` and `ts`, it is the order of the list that decides, and both sides say so. -/
theorem stemOf_iff {exts : List String} {name stem : String} :
    StemOf exts name stem ↔ tokenChars exts name.toList = stem.toList := by
  unfold tokenChars
  constructor
  · intro h
    cases h with
    | @cut before after e _ hexts hbefore hname =>
      have hfound : exts.findSome? (fun e => beforeEnd? name.toList ('.' :: e.toList)) =
          some stem.toList := by
        refine List.findSome?_eq_some_iff.mpr ⟨before, e, after, hexts, ?_, ?_⟩
        · exact beforeEnd?_eq_some_iff.mpr (by simp [hname])
        · intro e' he'
          exact beforeEnd?_eq_none_iff.mpr (by simpa using hbefore e' he')
      rw [hfound]
      rfl
    | whole h =>
      have hnone : exts.findSome? (fun e => beforeEnd? name.toList ('.' :: e.toList)) = none := by
        refine List.findSome?_eq_none_iff.mpr fun e he => ?_
        exact beforeEnd?_eq_none_iff.mpr (by simpa using h e he)
      rw [hnone]
      rfl
  · intro h
    cases hfound : exts.findSome? (fun e => beforeEnd? name.toList ('.' :: e.toList)) with
    | some front =>
      rw [hfound] at h
      obtain ⟨before, e, after, hexts, he, hbefore⟩ := List.findSome?_eq_some_iff.mp hfound
      have hfront : front = stem.toList := h
      have hname := beforeEnd?_eq_some_iff.mp he
      refine .cut hexts (fun e' he' => ?_) ?_
      · simpa using beforeEnd?_eq_none_iff.mp (hbefore e' he')
      · rw [← String.toList_inj]
        simp [hname, hfront]
    | none =>
      rw [hfound] at h
      have hstem : name = stem := String.toList_inj.mp h
      subst hstem
      refine .whole fun e he => ?_
      simpa using beforeEnd?_eq_none_iff.mp (List.findSome?_eq_none_iff.mp hfound e he)

/-- A name that is nothing but an extension has an empty stem, and so has a path without a name. There
is nothing to search for in either case. -/
theorem token_of_eq_empty {exts : List String} {p : Path}
    (h : String.ofList (tokenChars exts (nameShown p).toList) = "") :
    token exts p = .error ⟨p.shown⟩ := by
  have hchars : tokenChars exts (nameShown p).toList = [] := by
    simpa using congrArg String.toList h
  unfold token
  rw [hchars]

theorem token_of_ne_empty {exts : List String} {p : Path}
    (h : String.ofList (tokenChars exts (nameShown p).toList) ≠ "") :
    token exts p = .ok (String.ofList (tokenChars exts (nameShown p).toList)) := by
  unfold token
  cases hchars : tokenChars exts (nameShown p).toList with
  | nil =>
    rw [hchars] at h
    exact absurd rfl h
  | cons c cs => rfl

/-! ## 3. Reading a pattern -/

def escapedChars (cs : List Char) : List Char :=
  cs.flatMap fun c => if isMeta c then ['\\', c] else [c]

theorem toList_escaped (text : String) : (escaped text).toList = escapedChars text.toList :=
  String.toList_ofList

/-- What is read of a pattern: the branches of the innermost open group that are complete, the one
that is not, and the same for the groups around it. -/
structure PatternReader where
  branches : RegularExpression Char := 0
  branch : RegularExpression Char := 1
  outer : List (RegularExpression Char × RegularExpression Char) := []

namespace PatternReader

/-- What is read of the innermost open group, as an expression. -/
def choice (r : PatternReader) : RegularExpression Char := r.branches + r.branch

def push (r : PatternReader) (x : RegularExpression Char) : PatternReader :=
  { r with branch := r.branch * x }

def nextBranch (r : PatternReader) : PatternReader :=
  { r with branches := r.choice, branch := 1 }

def openGroup (r : PatternReader) : PatternReader := { outer := (r.branches, r.branch) :: r.outer }

def closeGroup? (r : PatternReader) : Option PatternReader :=
  match r.outer with
  | [] => none
  | (branches, branch) :: outer => some ⟨branches, branch * r.choice, outer⟩

def finish? (r : PatternReader) : Option (RegularExpression Char) :=
  match r.outer with
  | [] => some r.choice
  | _ :: _ => none

mutual

/-- Reads the rest of a pattern. -/
def read? (r : PatternReader) : List Char → Option (RegularExpression Char)
  | [] => r.finish?
  | '\\' :: c :: cs => if isMeta c then read? (r.push (.char c)) cs else none
  | '(' :: '?' :: ':' :: cs => read? r.openGroup cs
  | '|' :: cs => read? r.nextBranch cs
  | ')' :: cs =>
    match r.closeGroup? with
    | some r => read? r cs
    | none => none
  | '[' :: c :: cs => if isMeta c then none else readClass? r (.char c) cs
  | c :: cs => if isMeta c then none else read? (r.push (.char c)) cs

/-- Reads the rest of a class, and what comes after it. -/
def readClass? (r : PatternReader) (members : RegularExpression Char) :
    List Char → Option (RegularExpression Char)
  | [] => none
  | ']' :: cs => read? (r.push members) cs
  | c :: cs => if isMeta c then none else readClass? r (members + .char c) cs

end

/-- A character without a meaning stands for itself, whatever comes behind it. Each of the other cases
of the reader starts with a character that has one. -/
theorem read?_plain {c : Char} (h : isMeta c = false) (r : PatternReader) (cs : List Char) :
    r.read? (c :: cs) = (r.push (.char c)).read? cs := by
  rw [read?.eq_def]
  split
  case h_1 heq => cases heq
  case h_7 heq =>
    cases heq
    rw [h]
    rfl
  -- the other characters have a meaning
  all_goals
    rename_i heq
    cases heq
    cases h

theorem read?_backslash {c : Char} (h : isMeta c = true) (r : PatternReader) (cs : List Char) :
    r.read? ('\\' :: c :: cs) = (r.push (.char c)).read? cs := by
  rw [read?, if_pos h]

/-- The reader behind characters that stand for themselves. -/
def spell (r : PatternReader) (cs : List Char) : PatternReader :=
  cs.foldl (fun r c => r.push (.char c)) r

/-- **What is escaped is read as it was.** Each character takes a backslash just if it has a meaning,
so one of the two rules above applies to it, and nothing that the text holds can open a group or start
a branch. -/
theorem read?_escapedChars (r : PatternReader) (cs rest : List Char) :
    r.read? (escapedChars cs ++ rest) = (r.spell cs).read? rest := by
  induction cs generalizing r with
  | nil => rfl
  | cons c cs ih =>
    show r.read? ((if isMeta c then ['\\', c] else [c]) ++ escapedChars cs ++ rest) = _
    rw [List.append_assoc]
    cases h : isMeta c with
    | true => exact (read?_backslash h r _).trans (ih _)
    | false => exact (read?_plain h r _).trans (ih _)

/-- Characters that stand for themselves are matched in their order, behind what the branch matched
before. -/
theorem mem_branch_spell (r : PatternReader) (cs found : List Char) :
    found ∈ (r.spell cs).branch.matches' ↔ ∃ front ∈ r.branch.matches', found = front ++ cs := by
  induction cs generalizing r with
  | nil => simp [spell]
  | cons c cs ih =>
    show found ∈ ((r.push (.char c)).spell cs).branch.matches' ↔ _
    rw [ih]
    constructor
    · intro h
      obtain ⟨front, hfront, rfl⟩ := h
      obtain ⟨xs, hxs, _, rfl, rfl⟩ := Language.mem_mul.mp hfront
      exact ⟨xs, hxs, List.append_assoc xs [c] cs⟩
    · intro h
      obtain ⟨front, hfront, rfl⟩ := h
      exact ⟨front ++ [c], Language.mem_mul.mpr ⟨front, hfront, [c], rfl, rfl⟩,
        (List.append_assoc front [c] cs).symm⟩

theorem branches_spell (r : PatternReader) (cs : List Char) :
    (r.spell cs).branches = r.branches := by
  induction cs generalizing r with
  | nil => rfl
  | cons c cs ih => exact ih (r.push (.char c))

theorem outer_spell (r : PatternReader) (cs : List Char) : (r.spell cs).outer = r.outer := by
  induction cs generalizing r with
  | nil => rfl
  | cons c cs ih => exact ih (r.push (.char c))

/-- The reader behind one more branch for each extension. -/
def alternate (r : PatternReader) (exts : List String) : PatternReader :=
  exts.foldl (fun r e => r.nextBranch.spell ('.' :: e.toList)) r

/-- Each extension is a branch of the open group, behind a bar and with its dot. The bars are written
and not escaped, so they are the only ones that are read as bars. -/
theorem read?_alternatives (r : PatternReader) (exts : List String) (rest : List Char) :
    r.read? (exts.flatMap (fun e => '|' :: escapedChars ('.' :: e.toList)) ++ rest) =
      (r.alternate exts).read? rest := by
  induction exts generalizing r with
  | nil => rfl
  | cons e exts ih =>
    rw [List.flatMap_cons, List.append_assoc, List.cons_append]
    show r.nextBranch.read? _ = _
    rw [read?_escapedChars, ih]
    rfl

theorem outer_alternate (r : PatternReader) (exts : List String) :
    (r.alternate exts).outer = r.outer := by
  induction exts generalizing r with
  | nil => rfl
  | cons e exts ih => exact (ih _).trans (outer_spell r.nextBranch _)

theorem mem_branch_spell_of_eq_one {r : PatternReader} (h : r.branch = 1) (cs found : List Char) :
    found ∈ (r.spell cs).branch.matches' ↔ found = cs := by
  rw [mem_branch_spell, h]
  constructor
  · intro hfound
    obtain ⟨_, rfl, hfound⟩ := hfound
    exact hfound
  · intro hfound
    exact ⟨[], rfl, hfound⟩

theorem mem_choice_spell_nextBranch (r : PatternReader) (cs found : List Char) :
    found ∈ (r.nextBranch.spell cs).choice.matches' ↔ found ∈ r.choice.matches' ∨ found = cs := by
  show found ∈ (r.nextBranch.spell cs).branches.matches' +
    (r.nextBranch.spell cs).branch.matches' ↔ _
  rw [Language.mem_add, branches_spell, mem_branch_spell_of_eq_one rfl]
  rfl

/-- Each extension adds one word to what the group matches, and takes none away. -/
theorem mem_choice_alternate (r : PatternReader) (exts : List String) (found : List Char) :
    found ∈ (r.alternate exts).choice.matches' ↔
      found ∈ r.choice.matches' ∨ ∃ e ∈ exts, found = '.' :: e.toList := by
  induction exts generalizing r with
  | nil => simp [alternate]
  | cons e exts ih =>
    show found ∈ ((r.nextBranch.spell ('.' :: e.toList)).alternate exts).choice.matches' ↔ _
    rw [ih, mem_choice_spell_nextBranch, List.exists_mem_cons_iff, or_assoc]

end PatternReader

def readPattern? (text : String) : Option (RegularExpression Char) :=
  ({} : PatternReader).read? text.toList

theorem intercalate_cons (sep part : List Char) (parts : List (List Char)) :
    sep.intercalate (part :: parts) = part ++ parts.flatMap (sep ++ ·) := by
  induction parts generalizing part with
  | nil => simp
  | cons part' parts ih =>
    rw [List.intercalate_cons_cons, ih, List.flatMap_cons]
    simp only [List.append_assoc]

theorem toList_patternText (exts : List String) (token : String) :
    (patternText exts token).toList = escapedChars token.toList ++
      '(' :: '?' :: ':' :: '[' :: '\'' :: '"' :: ']' ::
        (exts.flatMap (fun e => '|' :: escapedChars ('.' :: e.toList)) ++ [')']) := by
  have hends : (String.intercalate "|" ("['\"]" :: exts.map fun e => escaped ("." ++ e))).toList =
      ['[', '\'', '"', ']'] ++
        exts.flatMap fun e => '|' :: escapedChars ('.' :: e.toList) := by
    rw [String.toList_intercalate, List.map_cons, intercalate_cons, List.map_map, List.flatMap_map]
    simp [toList_escaped]
  unfold patternText
  rw [String.toList_append, String.toList_append, String.toList_append, hends, toList_escaped]
  simp

/-- The reader behind the token of a pattern. -/
def behindToken (token : String) : PatternReader := ({} : PatternReader).spell token.toList

/-- The reader behind the endings of a pattern, whose group is still open. -/
def behindEndings (exts : List String) (token : String) : PatternReader :=
  ((behindToken token).openGroup.push (.char '\'' + .char '"')).alternate exts

theorem mem_branch_behindToken {token : String} {found : List Char} :
    found ∈ (behindToken token).branch.matches' ↔ found = token.toList := by
  unfold behindToken
  exact PatternReader.mem_branch_spell_of_eq_one rfl _ _

/-- What the group matches are the endings of the search. The class is one branch with two words, and
every other ending has its branch. -/
theorem mem_choice_behindEndings {exts : List String} {token : String} {found : List Char} :
    found ∈ (behindEndings exts token).choice.matches' ↔ found ∈ endings exts := by
  have hquotes : found ∈ ((behindToken token).openGroup.push
      (.char '\'' + .char '"')).choice.matches' ↔ found = ['\''] ∨ found = ['"'] := by
    show found ∈ (0 + 1 * ({['\'']} + {['"']}) : Language Char) ↔ _
    rw [zero_add, one_mul, Language.mem_add]
    rfl
  unfold behindEndings endings
  rw [PatternReader.mem_choice_alternate, hquotes, or_assoc]
  simp only [List.mem_cons, List.mem_map, eq_comm]

theorem outer_behindEndings (exts : List String) (token : String) :
    (behindEndings exts token).outer = [(0, (behindToken token).branch)] := by
  unfold behindEndings
  rw [PatternReader.outer_alternate]
  show ((behindToken token).branches, (behindToken token).branch) :: (behindToken token).outer = _
  rw [behindToken, PatternReader.branches_spell, PatternReader.outer_spell]

/-- The pattern is read to its end, and what comes of it is a product: the token, and the group behind
it. That it can be read at all is part of this, whatever characters the token and the extensions hold.
-/
theorem readPattern?_patternText (exts : List String) (token : String) :
    readPattern? (patternText exts token) =
      some (0 + (behindToken token).branch * (behindEndings exts token).choice) := by
  have hends : readPattern? (patternText exts token) = (behindEndings exts token).read? [')'] := by
    unfold readPattern?
    rw [toList_patternText, PatternReader.read?_escapedChars]
    exact PatternReader.read?_alternatives _ exts [')']
  rw [hends, PatternReader.read?, PatternReader.closeGroup?, outer_behindEndings]
  rfl

/-- The pattern of a search matches the token with an ending behind it, and nothing else. -/
theorem exists_readPattern?_patternText (exts : List String) (token : String) :
    ∃ x, readPattern? (patternText exts token) = some x ∧
      ∀ found, found ∈ x.matches' ↔ ∃ ending ∈ endings exts, found = token.toList ++ ending := by
  refine ⟨_, readPattern?_patternText exts token, fun found => ?_⟩
  show found ∈ (0 + (behindToken token).branch.matches' *
    (behindEndings exts token).choice.matches' : Language Char) ↔ _
  rw [zero_add, Language.mem_mul]
  constructor
  · intro h
    obtain ⟨front, hfront, ending, hending, rfl⟩ := h
    rw [mem_branch_behindToken.mp hfront]
    exact ⟨ending, mem_choice_behindEndings.mp hending, rfl⟩
  · intro h
    obtain ⟨ending, hending, rfl⟩ := h
    exact ⟨token.toList, mem_branch_behindToken.mpr rfl, ending,
      mem_choice_behindEndings.mpr hending, rfl⟩

/-! ## 4. What a search finds -/

/-- A text holds the stem with a quote of either kind, or a dot and an extension, behind it. -/
def Mentions (exts : List String) (stem content : String) : Prop :=
  ∃ ending ∈ "'" :: "\"" :: exts.map ("." ++ ·), (stem ++ ending).toList <:+: content.toList

instance (exts : List String) (stem content : String) : Decidable (Mentions exts stem content) :=
  inferInstanceAs (Decidable (∃ _ ∈ _, _))

/-- A text holds something that an expression matches. -/
def FoundIn (x : RegularExpression Char) (content : String) : Prop :=
  ∃ found ∈ x.matches', found <:+: content.toList

theorem mentions_iff {exts : List String} {stem content : String} : Mentions exts stem content ↔
    ∃ ending ∈ endings exts, stem.toList ++ ending <:+: content.toList := by
  unfold Mentions endings
  simp

theorem cites_iff_mentions {exts : List String} {stem content : String} :
    cites stem.toList (endings exts) content.toList = true ↔ Mentions exts stem content := by
  rw [cites_iff, mentions_iff]

/-- **The pattern finds what the search finds.** It matches the words that are searched for, and a text
in which it is found is one that holds such a word. -/
theorem exists_pattern (exts : List String) (stem : String) :
    ∃ x, readPattern? (patternText exts stem) = some x ∧
      ∀ content, FoundIn x content ↔ Mentions exts stem content := by
  obtain ⟨x, hread, hmatches⟩ := exists_readPattern?_patternText exts stem
  refine ⟨x, hread, fun content => ?_⟩
  rw [mentions_iff]
  constructor
  · intro h
    obtain ⟨found, hfound, hinfix⟩ := h
    obtain ⟨ending, hending, rfl⟩ := (hmatches found).mp hfound
    exact ⟨ending, hending, hinfix⟩
  · intro h
    obtain ⟨ending, hending, hinfix⟩ := h
    exact ⟨_, (hmatches _).mpr ⟨ending, hending, rfl⟩, hinfix⟩

end Citation

namespace Snapshot

open Citation

/-- A file whose name has an empty stem cannot be searched for. The referrers of any other are the
files that mention the stem, each in its place, and those are the files in which the pattern of the
search is found. -/
theorem referrers_eq_mentions (s : Snapshot) (exts : List String) (p : Path) :
    ∃ stem, (∀ t, StemOf (Extension.kept exts) (nameShown p) t ↔ t = stem) ∧
      (stem = "" → s.referrers exts p = .error ⟨p.shown⟩) ∧
        (stem ≠ "" →
          s.referrers exts p =
            .ok ((s.files.filter fun f => Mentions (Extension.kept exts) stem f.content).map
              (·.path)) ∧
          ∃ pattern, readPattern? (patternText (Extension.kept exts) stem) = some pattern ∧
            ∀ content, FoundIn pattern content ↔ Mentions (Extension.kept exts) stem content) := by
  refine ⟨String.ofList (tokenChars (Extension.kept exts) (nameShown p).toList), ?_, ?_, ?_⟩
  · intro t
    rw [stemOf_iff, ← String.toList_inj, String.toList_ofList, eq_comm]
  · intro h
    exact referrers_eq_error_iff.mpr (token_of_eq_empty h)
  · intro h
    refine ⟨referrers_eq_ok_iff.mpr ⟨_, token_of_ne_empty h, ?_⟩, exists_pattern _ _⟩
    refine congrArg (List.map SourceFile.path) (List.filter_congr fun f _ => ?_)
    rw [Bool.eq_iff_iff, cites_iff_mentions, decide_eq_true_iff]

/-- Four files about `a+b.ts`. The last two do not refer to it: one has a blank between the stem and
the dot, and the other holds what `a+b` would match if the plus were not taken literally. -/
def sumUsers : Snapshot where
  root := .ofString "/p"
  files :=
    [⟨.ofString "/p/quoted.ts", "import './a+b'"⟩, ⟨.ofString "/p/full.ts", "import './a+b.ts'"⟩,
      ⟨.ofString "/p/spaced.ts", "// a+b .ts"⟩, ⟨.ofString "/p/other.ts", "import './aab'"⟩]
  skipped := []

/-- An extension with a blank and a dot in front is searched for without them: it is cut off the name,
and follows the stem, as `ts`. -/
theorem referrers_eq_mentions_sumUsers :
    (∀ t, StemOf ["ts"] "a+b.ts" t ↔ t = "a+b") ∧
      sumUsers.referrers [" .ts"] (.ofString "src/a+b.ts") =
        .ok [.ofString "/p/quoted.ts", .ofString "/p/full.ts"] ∧
      ∃ pattern, readPattern? (patternText ["ts"] "a+b") = some pattern ∧
        ∀ content, FoundIn pattern content ↔ Mentions ["ts"] "a+b" content := by
  have hkept : Extension.kept [" .ts"] = ["ts"] := by decide +kernel
  have hname : nameShown (.ofString "src/a+b.ts") = "a+b.ts" := by decide +kernel
  obtain ⟨stem, hstem, -, hfound⟩ :=
    referrers_eq_mentions sumUsers [" .ts"] (.ofString "src/a+b.ts")
  rw [hkept, hname] at hstem
  rw [hkept] at hfound
  obtain rfl : "a+b" = stem :=
    (hstem "a+b").mp (@StemOf.cut _ _ [] [] "ts" "a+b" rfl (by simp) (by decide +kernel))
  obtain ⟨hreferrers, hpattern⟩ := hfound (by decide)
  refine ⟨hstem, ?_, hpattern⟩
  rw [hreferrers]
  decide +kernel

end Snapshot
end Citator

import Citator.Proofs.Glob.Language
import Citator.Proofs.Path.Strip

/-!
# `Citator.Proofs.Glob.Reading` — globs that are put together from plain texts

Most characters stand for themselves wherever they are read. A text of such characters is read as a row
of literals, whatever was read before it and whatever groups are open (`read_append_plain`). So a glob
that is put together from plain texts, with a star, a brace or a comma between them, is read piece by
piece: each piece adds its literals to the branch that is being read, and each comma or brace does what
it does to the group (`read_branches`).

What such pieces mean is just as plain: a row of literals stands for the one string that its characters
spell.
-/

namespace Citator.Glob

variable {plain : Bool} {r : Reader} {c : Char} {cs rest : List Char} {w : Bytes}

def metacharacters : List Char := ['*', '?', '[', ']', '{', '}', ',', '\\']

/-- Whether a character stands for itself wherever it is read. -/
def isPlain (c : Char) : Bool := !metacharacters.contains c

def literalsOf (cs : List Char) : List Token := cs.map Token.literal

namespace Reader

/-! ## 1. Plain texts -/

/-- The reader with some characters pushed as literals. -/
def pushAll (r : Reader) (cs : List Char) : Reader := cs.foldl (fun r c => r.push (.literal c) c) r

@[simp] theorem pushAll_groups (r : Reader) (cs : List Char) : (r.pushAll cs).groups = r.groups := by
  induction cs generalizing r with
  | nil => rfl
  | cons c cs ih => exact ih (r.push (.literal c) c)

@[simp] theorem pushAll_tokens (r : Reader) (cs : List Char) :
    (r.pushAll cs).tokens = (literalsOf cs).reverse ++ r.tokens := by
  induction cs generalizing r with
  | nil => rfl
  | cons c cs ih =>
    have hpush := ih (r.push (.literal c) c)
    rw [literalsOf, List.map_cons, List.reverse_cons, List.append_assoc]
    exact hpush

theorem read_cons_plain (hc : isPlain c = true) :
    read plain r (c :: cs) = read plain (r.push (.literal c) c) cs := by
  have hne : ∀ d ∈ metacharacters, c ≠ d := by
    intro d hd hcd
    rw [isPlain, hcd, List.contains_iff_mem.mpr hd] at hc
    exact absurd hc (by decide)
  simp only [metacharacters, List.forall_mem_cons] at hne
  obtain ⟨hstar, hquery, hopen, -, hgroup, hend, hcomma, hback, -⟩ := hne
  conv_lhs => rw [read.eq_def]
  cases cs <;> simp [hstar, hquery, hopen, hgroup, hend, hcomma, hback]

/-- **Plain characters are read as literals**, wherever the reader stands. What was read before them
and which groups are open makes no difference, so a text of them is read at one go. -/
theorem read_append_plain (h : ∀ c ∈ cs, isPlain c = true) :
    read plain r (cs ++ rest) = read plain (r.pushAll cs) rest := by
  induction cs generalizing r with
  | nil => rfl
  | cons c cs ih =>
    obtain ⟨hc, hcs⟩ := List.forall_mem_cons.mp h
    rw [List.cons_append, read_cons_plain hc, ih hcs]
    rfl

/-! ## 2. Stars and groups -/

/-- A star that no second one follows. -/
theorem read_star (h : cs.head? ≠ some '*') :
    read plain r ('*' :: cs) = read plain (r.push .anyRun '*') cs := by
  conv_lhs => rw [read.eq_def]
  cases cs with
  | nil => simp
  | cons d cs =>
    have hd : d ≠ '*' := by simpa using h
    simp [hd]

theorem read_openGroup : read plain r ('{' :: cs) = read plain r.openGroup cs := by
  conv_lhs => rw [read.eq_def]
  cases cs <;> simp

theorem read_nextBranch : read plain r (',' :: cs) = read plain r.nextBranch cs := by
  conv_lhs => rw [read.eq_def]
  cases cs <;> simp

theorem read_closeGroup {r' : Reader} (h : r.closeGroup = .ok r') :
    read plain r ('}' :: cs) = read plain r' cs := by
  conv_lhs => rw [read.eq_def]
  cases cs <;> simp [h]

variable {outer : List Token} {done : List (List Token)} {gs : List (List Token × List (List Token))}

/-- A comma inside a group ends the branch that is being read: its tokens, which were pushed in
reverse, become one more branch of the innermost group. -/
theorem nextBranch_of_groups (h : r.groups = (outer, done) :: gs) :
    r.nextBranch.groups = (outer, r.tokens.reverse :: done) :: gs ∧ r.nextBranch.tokens = [] := by
  rw [nextBranch, h]
  exact ⟨rfl, rfl⟩

/-- A brace ends the last branch, and the whole group becomes one token of the branch around it. This
is where the branches, latest first, come into their order. -/
theorem closeGroup_of_groups (h : r.groups = (outer, done) :: gs) :
    ∃ r', r.closeGroup = .ok r' ∧ r'.groups = gs ∧
      r'.tokens = .choice (r.tokens.reverse :: done).reverse :: outer := by
  rw [closeGroup, h]
  exact ⟨_, rfl, rfl, rfl⟩

/-- Plain texts between commas, up to the brace that closes their group, are read as its branches. -/
theorem read_branches (plain : Bool) (rest : List Char) {bs : List (List Char)} (hne : bs ≠ [])
    (hplain : ∀ b ∈ bs, ∀ c ∈ b, isPlain c = true) (hgroups : r.groups = (outer, done) :: gs)
    (htokens : r.tokens = []) :
    ∃ r', read plain r ([','].intercalate bs ++ '}' :: rest) = read plain r' rest ∧ r'.groups = gs ∧
      r'.tokens = .choice (done.reverse ++ bs.map literalsOf) :: outer := by
  -- every comma completes a branch, so the complete ones grow along the induction
  induction bs generalizing r done with
  | nil => exact absurd rfl hne
  | cons b bs ih =>
    obtain ⟨hb, hbs⟩ := List.forall_mem_cons.mp hplain
    have hgroups' : (r.pushAll b).groups = (outer, done) :: gs := by rw [pushAll_groups, hgroups]
    have htokens' : (r.pushAll b).tokens.reverse = literalsOf b := by
      rw [pushAll_tokens, htokens, List.append_nil, List.reverse_reverse]
    cases bs with
    | nil =>
      obtain ⟨r', hclose, hgs, hts⟩ := closeGroup_of_groups hgroups'
      rw [List.intercalate_singleton, read_append_plain hb, read_closeGroup hclose]
      refine ⟨r', rfl, hgs, ?_⟩
      rw [hts, htokens', List.reverse_cons]
      rfl
    | cons b' bs =>
      obtain ⟨hnext, hempty⟩ := nextBranch_of_groups hgroups'
      obtain ⟨r', hread, hgs, hts⟩ := ih (List.cons_ne_nil b' bs) hbs hnext hempty
      rw [List.intercalate_cons_cons, List.append_assoc, List.append_assoc, read_append_plain hb,
        List.singleton_append, read_nextBranch]
      refine ⟨r', hread, hgs, ?_⟩
      rw [hts, htokens', List.reverse_cons, List.append_assoc, List.singleton_append, ← List.map_cons]

end Reader

/-! ## 3. What literals stand for -/

theorem mem_seqLang_literalsOf (inSegment : Bool) (cs : List Char) :
    w ∈ seqLang inSegment (literalsOf cs) ↔ w = Path.bytesOf cs := by
  induction cs generalizing w with
  | nil => exact Language.mem_one w
  | cons c cs ih =>
    show w ∈ {String.utf8EncodeChar c} * seqLang inSegment (literalsOf cs) ↔ _
    rw [mem_singleton_mul]
    simp only [ih, exists_eq_left]
    rfl

theorem voidBranch_literalsOf (h : cs ≠ []) : voidBranch (literalsOf cs) = false := by
  cases cs with
  | nil => exact absurd rfl h
  | cons c cs => rfl

/-- A choice between plain texts, of which none is empty, stands for what they spell. -/
theorem mem_lang_choice_literalsOf (inSegment : Bool) {bs : List (List Char)} (hne : bs ≠ [])
    (hbs : ∀ b ∈ bs, b ≠ []) :
    w ∈ (Token.choice (bs.map literalsOf)).lang inSegment ↔ ∃ b ∈ bs, w = Path.bytesOf b := by
  have hvoid : allVoid (bs.map literalsOf) = false := by
    obtain ⟨b, bs, rfl⟩ := List.exists_cons_of_ne_nil hne
    rw [List.map_cons, allVoid, voidBranch_literalsOf (hbs b List.mem_cons_self), Bool.false_and]
  rw [Token.lang, hvoid, if_neg Bool.false_ne_true, mem_branchesLang_iff]
  constructor
  · rintro ⟨_, hmem, -, hw⟩
    obtain ⟨b, hb, rfl⟩ := List.mem_map.mp hmem
    exact ⟨b, hb, (mem_seqLang_literalsOf inSegment b).mp hw⟩
  · rintro ⟨b, hb, hw⟩
    exact ⟨literalsOf b, List.mem_map_of_mem hb, voidBranch_literalsOf (hbs b hb),
      (mem_seqLang_literalsOf inSegment b).mpr hw⟩

end Citator.Glob

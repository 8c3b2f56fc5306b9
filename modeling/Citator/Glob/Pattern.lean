import Citator.Text.Utf8

/-!
# `Citator.Glob.Pattern` — the parts of a glob, and how a glob is read

A glob is read into a list of tokens. Two things make the reading more than a table of characters.

**Two stars.** `**` stands for directories only where separators delimit it: `**/` in front, `/**/`
inside and `/**` at the end. There the separators belong to the token, so a token may take back the
separator that was read before it. Anywhere else two stars are two single stars.

**Groups.** `{a,b}` is a choice, and choices nest. The reader therefore keeps, for every group that
is open, what was read before the group and the branches that are already complete.

The reader works on characters and never looks further ahead than the next two, except for a class:
`[` is a class only if a `]` closes it.
-/

namespace Citator.Glob

/-! ## 1. Tokens and errors -/

/-- A part of a glob. -/
inductive Token where
  /-- A character that stands for itself. -/
  | literal (c : Char)
  /-- `?` -/
  | anyByte
  /-- `*` -/
  | anyRun
  /-- `**/` in front: no directory, or any number of them. -/
  | leadingDirs
  /-- `/**` at the end: a separator and anything. -/
  | trailingDirs
  /-- `/**/` inside: a separator, then no directory or any number of them. -/
  | innerDirs
  /-- `[…]`, or `[!…]` if `negated`. -/
  | oneOf (negated : Bool) (ranges : List (Char × Char))
  /-- `{…}` -/
  | choice (branches : List (List Token))
  deriving Repr, Inhabited

/-- Why a text is not a glob. -/
inductive Fault where
  | unclosedClass
  | invalidRange (first last : Char)
  | unopenedGroup
  | unclosedGroup
  | danglingEscape
  deriving DecidableEq, Repr

def Fault.message : Fault → String
  | .unclosedClass => "unclosed character class; missing ']'"
  | .invalidRange a b => "invalid range; '" ++ a.toString ++ "' > '" ++ b.toString ++ "'"
  | .unopenedGroup =>
    "unopened alternate group; missing '\x7b' (maybe escape '\x7d' with '[\x7d]'?)"
  | .unclosedGroup =>
    "unclosed alternate group; missing '\x7d' (maybe escape '\x7b' with '[\x7b]'?)"
  | .danglingEscape => "dangling '\\'"

/-- A text that is not a glob, and why. -/
structure ParseError where
  text : String
  fault : Fault
  deriving DecidableEq, Repr

def ParseError.message (e : ParseError) : String :=
  "error parsing glob '" ++ e.text ++ "': " ++ e.fault.message

/-! ## 2. Classes -/

/-- What follows a `[`. -/
inductive ClassReading where
  /-- A class, and the characters after its `]`. -/
  | closed (negated : Bool) (ranges : List (Char × Char)) (rest : List Char)
  /-- No `]` follows. -/
  | unclosed
  /-- A range whose ends are in the wrong order. -/
  | badRange (first last : Char)
  deriving Repr

/-- The members of a class, read up to its `]`. `ranges` holds those before, latest first; `inRange`
says that a `-` was read whose right end is missing. A `]` or `-` in first place is a member, and so
is a `-` in last place. -/
def readMembers (negated : Bool) : List (Char × Char) → Bool → List Char → ClassReading
  | _, _, [] => .unclosed
  | [], _, c :: cs => readMembers negated [(c, c)] false cs
  | (a, b) :: ranges, inRange, c :: cs =>
    if c = ']' then
      .closed negated (if inRange then ((a, b) :: ranges).reverse ++ [('-', '-')]
        else ((a, b) :: ranges).reverse) cs
    else if inRange then
      if c < a then .badRange a c
      else readMembers negated ((a, c) :: ranges) false cs
    else if c = '-' then readMembers negated ((a, b) :: ranges) true cs
    else readMembers negated ((c, c) :: (a, b) :: ranges) false cs

/-- The class that follows a `[`, negated by a `!` or `^`. -/
def readClass : List Char → ClassReading
  | [] => .unclosed
  | c :: cs => if c = '!' ∨ c = '^' then readMembers true [] false cs
    else readMembers false [] false (c :: cs)

theorem length_of_readMembers {negated : Bool} {neg : Bool} {rs' : List (Char × Char)}
    {rest : List Char} :
    ∀ {rs : List (Char × Char)} {inRange : Bool} {cs : List Char},
      readMembers negated rs inRange cs = .closed neg rs' rest → rest.length < cs.length := by
  intro rs inRange cs h
  induction cs generalizing rs inRange with
  | nil => cases rs <;> simp [readMembers] at h
  | cons c cs ih =>
    cases rs with
    | nil =>
      rw [readMembers] at h
      exact Nat.lt_succ_of_lt (ih h)
    | cons r rs =>
      obtain ⟨a, b⟩ := r
      rw [readMembers] at h
      split at h
      · simp only [ClassReading.closed.injEq] at h
        simp [← h.2.2]
      · split at h
        · split at h
          · exact absurd h (by simp)
          · exact Nat.lt_succ_of_lt (ih h)
        · split at h
          · exact Nat.lt_succ_of_lt (ih h)
          · exact Nat.lt_succ_of_lt (ih h)

theorem length_of_readClass {cs rest : List Char} {neg : Bool} {rs : List (Char × Char)}
    (h : readClass cs = .closed neg rs rest) : rest.length < cs.length := by
  cases cs with
  | nil => simp [readClass] at h
  | cons c cs =>
    rw [readClass] at h
    split at h
    · exact Nat.lt_succ_of_lt (length_of_readMembers h)
    · exact length_of_readMembers h

/-! ## 3. The reader -/

/-- What the reader holds between two steps. Lists grow in front. -/
structure Reader where
  /-- The groups that are open, innermost first: the tokens read before the group, and its complete
  branches. -/
  groups : List (List Token × List (List Token)) := []
  /-- The tokens of the current branch. -/
  tokens : List Token := []
  /-- The character that was read last. -/
  last : Option Char := none
  /-- Set once a `[` was found that nothing closes, where that is allowed. -/
  bracketsPlain : Bool := false
  deriving Repr, Inhabited

namespace Reader

def push (r : Reader) (t : Token) (last : Char) : Reader :=
  { r with tokens := t :: r.tokens, last := some last }

def pushStars (r : Reader) : Reader :=
  { r with tokens := .anyRun :: .anyRun :: r.tokens, last := some '*' }

def inGroup (r : Reader) : Bool := !r.groups.isEmpty

/-- Replaces the token before two stars, a separator as a rule, by one that stands for directories.
A second such token after a first changes nothing. -/
def mergeDirs (r : Reader) (t : Token) (last : Char) : Reader :=
  match r.tokens with
  | .leadingDirs :: _ => { r with last := some last }
  | .trailingDirs :: _ => { r with last := some last }
  | _ :: ts => { r with tokens := t :: ts, last := some last }
  | [] => { r with tokens := [t], last := some last }

def openGroup (r : Reader) : Reader :=
  { r with groups := (r.tokens, []) :: r.groups, tokens := [], last := some '{' }

/-- Starts the next branch of the innermost group; outside of groups a comma is a comma. -/
def nextBranch (r : Reader) : Reader :=
  match r.groups with
  | [] => r.push (.literal ',') ','
  | (outer, done) :: gs =>
    { r with groups := (outer, r.tokens.reverse :: done) :: gs, tokens := [], last := some ',' }

def closeGroup (r : Reader) : Except Fault Reader :=
  match r.groups with
  | [] => .error .unopenedGroup
  | (outer, done) :: gs =>
    .ok { r with groups := gs,
                 tokens := .choice (r.tokens.reverse :: done).reverse :: outer,
                 last := some '}' }

/-- What two stars mean, and the characters left after them. They stand for directories at the start
of a branch if a separator or the end follows, and after a separator if a separator, the end, or the
end of a branch follows. -/
def readTwoStars (r : Reader) (cs : List Char) : Reader × List Char :=
  if r.tokens.isEmpty then
    match cs with
    | [] => (r.push .leadingDirs '*', [])
    | '/' :: cs => (r.push .leadingDirs '/', cs)
    | cs => (r.pushStars, cs)
  else if r.last = some '/' ∨ (r.inGroup ∧ (r.last = some ',' ∨ r.last = some '{')) then
    match cs with
    | [] => (r.mergeDirs .trailingDirs '*', [])
    | '/' :: cs => (r.mergeDirs .innerDirs '/', cs)
    | ',' :: cs =>
      if r.inGroup then (r.mergeDirs .trailingDirs '*', ',' :: cs) else (r.pushStars, ',' :: cs)
    | '}' :: cs =>
      if r.inGroup then (r.mergeDirs .trailingDirs '*', '}' :: cs) else (r.pushStars, '}' :: cs)
    | cs => (r.pushStars, cs)
  else (r.pushStars, cs)

theorem length_readTwoStars (r : Reader) (cs : List Char) :
    (r.readTwoStars cs).2.length ≤ cs.length := by
  unfold readTwoStars
  split
  · split <;> simp
  · split
    · split <;> try split
      all_goals simp
    · simp

/-- Reads the rest of a glob. `unclosedIsPlain` says what a `[` means that nothing closes: itself, as
does every later one, or an error. -/
def read (unclosedIsPlain : Bool) (r : Reader) : List Char → Except Fault Reader
  | [] => .ok r
  | '*' :: '*' :: cs =>
    have := length_readTwoStars r cs
    read unclosedIsPlain (r.readTwoStars cs).1 (r.readTwoStars cs).2
  | c :: cs =>
    if c = '?' then read unclosedIsPlain (r.push .anyByte '?') cs
    else if c = '*' then read unclosedIsPlain (r.push .anyRun '*') cs
    else if c = '{' then read unclosedIsPlain r.openGroup cs
    else if c = ',' then read unclosedIsPlain r.nextBranch cs
    else if c = '}' then
      match r.closeGroup with
      | .error e => .error e
      | .ok r' => read unclosedIsPlain r' cs
    else if c = '\\' then
      match cs with
      | [] => .error .danglingEscape
      | d :: cs => read unclosedIsPlain (r.push (.literal d) d) cs
    else if c = '[' ∧ r.bracketsPlain = false then
      match h : readClass cs with
      | .closed negated ranges rest =>
        have := length_of_readClass h
        read unclosedIsPlain (r.push (.oneOf negated ranges) ']') rest
      | .badRange a b => .error (.invalidRange a b)
      | .unclosed =>
        if unclosedIsPlain then
          read unclosedIsPlain { r.push (.literal '[') '[' with bracketsPlain := true } cs
        else .error .unclosedClass
    else read unclosedIsPlain (r.push (.literal c) c) cs
  termination_by cs => cs.length
  decreasing_by all_goals simp_all <;> omega

/-- The tokens read, once every group is closed. -/
def finish (r : Reader) : Except Fault (List Token) :=
  if r.inGroup then .error .unclosedGroup else .ok r.tokens.reverse

end Reader

def tokensOf (unclosedIsPlain : Bool) (text : String) : Except ParseError (List Token) :=
  match (Reader.read unclosedIsPlain {} text.toList).bind Reader.finish with
  | .ok ts => .ok ts
  | .error fault => .error ⟨text, fault⟩

end Citator.Glob

import Citator.Text.Utf8

/-!
# `Citator.Text.Plain` — text without blanks around it, and without control sequences

Names, extensions and rule lines are trimmed of blanks before they are read. A blank is a character
with the Unicode property `White_Space`; there are twenty-five of them, and they have not changed
since the property was frozen. Core's `Char.isWhitespace` knows only four, so the table stands here.

Names and arguments may also hold control characters, and a terminal obeys them: a sequence that starts
with an escape character moves the cursor, sets a colour or a title. Text that goes to the error stream
as a message is therefore made plain. The sequences go, with all that belongs to them, and so do
control characters on their own; white space stays.

Which characters belong to a sequence is a matter of what the terminal is in the middle of: a
`Sequence`. White space is obeyed in the middle of a short sequence, too, so it is shown there. What
stands behind it is then shown as well, up to the next control character, where the terminal finds
itself in the sequence again.
-/

namespace Citator.Text

/-! ## 1. Blanks -/

/-- The characters with the Unicode property `White_Space`. -/
def isBlank (c : Char) : Bool :=
  let n := c.toNat
  (9 ≤ n && n ≤ 13) || n == 0x20 || n == 0x85 || n == 0xA0 || n == 0x1680 ||
    (0x2000 ≤ n && n ≤ 0x200A) || n == 0x2028 || n == 0x2029 || n == 0x202F || n == 0x205F ||
    n == 0x3000

/-- A list without the elements at its end that satisfy `p`. -/
def dropEndWhile {α : Type} (p : α → Bool) (xs : List α) : List α :=
  (xs.reverse.dropWhile p).reverse

/-- Characters without the blanks at either end. -/
def trimmed (cs : List Char) : List Char := dropEndWhile isBlank (cs.dropWhile isBlank)

def trim (s : String) : String := String.ofList (trimmed s.toList)

/-! ## 2. Control sequences -/

/-- What a terminal is in the middle of. -/
inductive Sequence where
  /-- Of nothing. -/
  | none
  /-- Behind an escape character. -/
  | escape
  /-- Behind an escape character and intermediate characters. -/
  | escapeTail
  /-- A control sequence, up to its final character. -/
  | control
  /-- The start of a device control string. -/
  | device
  /-- Behind parameters of a device control string. -/
  | deviceParameters
  /-- Behind intermediate characters of a device control string. -/
  | deviceTail
  /-- A string that only a terminator or another sequence ends. -/
  | string
  /-- An operating system command, which a bell ends, too. -/
  | command
  deriving DecidableEq, Repr

def escapeChar : Char := '\x1b'

/-- Whether a character is a control character that counts as white space. -/
def isBlankControl (c : Char) : Bool := c == '\t' || c == '\n' || c == '\x0c' || c == '\r'

/-- Whether a character is shown outside of sequences. -/
def isShown (c : Char) : Bool := (' ' ≤ c && c != '\x7f') || isBlankControl c

/-- Whether the byte `9C`, which ends a string, is among the bytes of a character. -/
def holdsTerminator (c : Char) : Bool := (String.utf8EncodeChar c).contains 0x9C

namespace Sequence

/-- What the terminal is in the middle of behind one more character. -/
def after (s : Sequence) (c : Char) : Sequence :=
  if c = escapeChar then .escape
  else if c = '\x18' ∨ c = '\x1a' then .none
  else
    let inside (low high : Char) : Bool := low ≤ c && c ≤ high
    match s with
    | .none => .none
    | .escape =>
      if inside ' ' '/' then .escapeTail
      else if c = '[' then .control
      else if c = ']' then .command
      else if c = 'P' then .device
      else if c = 'X' ∨ c = '^' ∨ c = '_' then .string
      else if inside '0' '~' then .none
      else .escape
    | .escapeTail => if inside '0' '~' then .none else .escapeTail
    | .control => if inside '@' '~' then .none else .control
    | .device =>
      if inside ' ' '/' then .deviceTail
      else if inside '0' '?' then .deviceParameters
      else if inside '@' '~' then .string
      else .device
    | .deviceParameters =>
      if inside ' ' '/' then .deviceTail
      else if inside '<' '~' then .string
      else .deviceParameters
    | .deviceTail => if inside '0' '~' then .string else .deviceTail
    | .string => if holdsTerminator c then .none else .string
    | .command => if c = '\x07' then .none else .command

/-- Whether a character is shown that stands in the middle of something. -/
def shows (s : Sequence) (c : Char) : Bool :=
  match s with
  | .none => isShown c
  | .escape | .escapeTail | .control => isBlankControl c
  | _ => false

end Sequence

/-- The characters that are shown of a text. `showing` says that text is being shown, whatever the
terminal is in the middle of; a character outside ASCII ends that. -/
def shownFrom (s : Sequence) (showing : Bool) : List Char → List Char
  | [] => []
  | c :: cs =>
    if showing && isShown c then c :: shownFrom (if c ≤ '\x7f' then s else .none) true cs
    else if s.shows c then c :: shownFrom s true cs
    else shownFrom (s.after c) false cs

def plain (s : String) : String := String.ofList (shownFrom .none false s.toList)

end Citator.Text

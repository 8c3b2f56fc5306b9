import Citator.Json.Error
import Citator.Text.Utf8

/-!
# `Citator.Json.Reading` — reading a text byte by byte

A reading moves a cursor through the bytes of a text and answers with a value or fails. A failure
leaves the cursor where it happened, since what encloses the failed part may still go on and since an
error is placed by a cursor.

Most problems are placed as soon as they arise, either behind the last byte read (`failHere`) or
behind the byte that is looked at (`failAtNext`). A problem with a *value* (a field that is missing, a
name that is not known) is raised without a place, and whatever was reading the value places it,
which may be some bytes later.
-/

namespace Citator.Json

/-! ## 1. Cursors and readings -/

/-- A place in a text: the bytes that are left, the line, and the number of bytes read of it. -/
structure Cursor where
  rest : Bytes
  line : Nat := 1
  column : Nat := 0
  deriving DecidableEq, Repr, Inhabited

def lineFeed : UInt8 := 0x0A

/-- The cursor behind the next byte. At the end it stays. -/
def Cursor.advance (c : Cursor) : Cursor :=
  match c.rest with
  | [] => c
  | b :: bs => if b = lineFeed then ⟨bs, c.line + 1, 0⟩ else ⟨bs, c.line, c.column + 1⟩

/-- A problem, and its place if it has one. -/
structure Failure where
  problem : Problem
  place : Option (Nat × Nat)
  deriving DecidableEq, Repr

def Reading (α : Type) : Type := Cursor → Except Failure α × Cursor

namespace Reading

protected def pure {α : Type} (a : α) : Reading α := fun c => (.ok a, c)

/-- Reads one thing after another; a failure ends it. -/
protected def bind {α β : Type} (r : Reading α) (f : α → Reading β) : Reading β := fun c =>
  match r c with
  | (.ok a, c) => f a c
  | (.error e, c) => (.error e, c)

instance : Monad Reading where
  pure := Reading.pure
  bind := Reading.bind

/-- Fails with a problem that has no place yet. -/
def fail {α : Type} (p : Problem) : Reading α := fun c => (.error ⟨p, none⟩, c)

def failHere {α : Type} (p : Problem) : Reading α := fun c =>
  (.error ⟨p, some (c.line, c.column)⟩, c)

/-- Fails so many bytes in front of the place behind the last byte read, on the same line. -/
def failBefore {α : Type} (bytes : Nat) (p : Problem) : Reading α := fun c =>
  (.error ⟨p, some (c.line, c.column - bytes)⟩, c)

/-- Fails behind the byte that comes next, or at the end. -/
def failAtNext {α : Type} (p : Problem) : Reading α := fun c =>
  (.error ⟨p, some (c.advance.line, c.advance.column)⟩, c)

/-- Places a problem that has no place behind the last byte read. -/
def placed {α : Type} (r : Reading α) : Reading α := fun c =>
  match r c with
  | (.error ⟨p, none⟩, c) => (.error ⟨p, some (c.line, c.column)⟩, c)
  | answer => answer

/-- Reads a body and then what closes it. The closing is read after a failure too; then the failure
stands, and only the cursor moves on. -/
def closedBy {α : Type} (body : Reading α) (close : Reading Unit) : Reading α := fun c =>
  match body c with
  | (.ok a, c) =>
    match close c with
    | (.ok _, c) => (.ok a, c)
    | (.error e, c) => (.error e, c)
  | (.error e, c) => (.error e, (close c).2)

/-- A reading with a bound on its rounds that is greater than the number of bytes left. -/
def bounded {α : Type} (r : Nat → Reading α) : Reading α := fun c => r (2 * c.rest.length + 2) c

/-! ## 2. Bytes -/

def peek : Reading (Option UInt8) := fun c => (.ok c.rest.head?, c)

def skip : Reading Unit := fun c => (.ok (), c.advance)

def next : Reading (Option UInt8) := fun c => (.ok c.rest.head?, c.advance)

/-- Whether a byte is white space between values. -/
def isSpace (b : UInt8) : Bool := b == 0x20 || b == lineFeed || b == 0x09 || b == 0x0D

def isDigit (b : UInt8) : Bool := 0x30 ≤ b && b ≤ 0x39

/-- The bytes in front that satisfy `p`, and the cursor behind them. -/
def spanFrom (p : UInt8 → Bool) : Bytes → Nat → Nat → Bytes × Cursor
  | [], line, column => ([], ⟨[], line, column⟩)
  | b :: bs, line, column =>
    if p b then
      let (taken, c) := if b = lineFeed then spanFrom p bs (line + 1) 0
        else spanFrom p bs line (column + 1)
      (b :: taken, c)
    else ([], ⟨b :: bs, line, column⟩)

def span (p : UInt8 → Bool) : Reading Bytes := fun c =>
  let (taken, c) := spanFrom p c.rest c.line c.column
  (.ok taken, c)

/-- Passes over white space and looks at the byte after it. -/
def peekPastSpace : Reading (Option UInt8) := do
  let _ ← span isSpace
  peek

def word : Bytes → Reading Unit
  | [] => return ()
  | b :: bs => do
    match ← next with
    | none => failHere .endInValue
    | some c => if c = b then word bs else failHere .expectedIdent

/-! ## 3. Strings -/

def hexValue? (b : UInt8) : Option Nat :=
  if 0x30 ≤ b ∧ b ≤ 0x39 then some (b.toNat - 0x30)
  else if 0x41 ≤ b ∧ b ≤ 0x46 then some (b.toNat - 0x41 + 10)
  else if 0x61 ≤ b ∧ b ≤ 0x66 then some (b.toNat - 0x61 + 10)
  else none

def hexValue4? (a b c d : UInt8) : Option Nat := do
  let a ← hexValue? a
  let b ← hexValue? b
  let c ← hexValue? c
  let d ← hexValue? d
  return ((a * 16 + b) * 16 + c) * 16 + d

def hexEscape : Reading Nat := do
  match ← next, ← next, ← next, ← next with
  | some a, some b, some c, some d =>
    match hexValue4? a b c d with
    | some n => return n
    | none => failHere .invalidEscape
  | _, _, _, _ => failHere .endInString

/-- The second half of a surrogate pair, whose first half was read. -/
def lowSurrogate : Reading Nat := do
  match ← peek with
  | none => failHere .endInString
  | some b =>
    if b = 0x5C then
      skip
      match ← peek with
      | none => failHere .endInString
      | some b =>
        if b = 0x75 then
          skip
          let n ← hexEscape
          if n < 0xDC00 ∨ 0xDFFF < n then failHere .loneSurrogate else return n
        else
          skip
          failHere .unfinishedHexEscape
    else
      skip
      failHere .unfinishedHexEscape

/-- The character that a hexadecimal escape stands for. -/
def unicodeEscape : Reading Char := do
  let n ← hexEscape
  if 0xDC00 ≤ n ∧ n ≤ 0xDFFF then failHere .loneSurrogate
  else if 0xD800 ≤ n ∧ n ≤ 0xDBFF then
    let low ← lowSurrogate
    return Char.ofNat ((n - 0xD800) * 0x400 + (low - 0xDC00) + 0x10000)
  else return Char.ofNat n

/-- The character that a letter after a backslash stands for. -/
def letterEscape? (b : UInt8) : Option Char :=
  if b = 0x22 then some '"'
  else if b = 0x5C then some '\\'
  else if b = 0x2F then some '/'
  else if b = 0x62 then some '\x08'
  else if b = 0x66 then some '\x0c'
  else if b = 0x6E then some '\n'
  else if b = 0x72 then some '\r'
  else if b = 0x74 then some '\t'
  else none

def escape : Reading Char := do
  match ← next with
  | none => failHere .endInString
  | some b =>
    if b = 0x75 then unicodeEscape
    else
      match letterEscape? b with
      | some c => return c
      | none => failHere .invalidEscape

/-- The bytes of a string between its quotes, escapes resolved. The closing quote stays. -/
def stringBytes : Nat → Reading Bytes
  | 0 => failHere .endInString
  | fuel + 1 => do
    match ← peek with
    | none => failHere .endInString
    | some b =>
      if b = 0x22 then return []
      else
        skip
        if b = 0x5C then
          let c ← escape
          return String.utf8EncodeChar c ++ (← stringBytes fuel)
        else if b < 0x20 then failHere .controlCharacter
        else return b :: (← stringBytes fuel)

/-- The rest of a string behind its opening quote. Bytes that are no text are noticed behind the
closing quote, and their place is counted back from there by the bytes of the string, escapes
resolved, from the first malformed sequence on. -/
def string : Reading String := do
  let bytes ← bounded stringBytes
  skip
  match Utf8.decode? bytes with
  | some s => return s
  | none => failBefore (bytes.length - Utf8.wellFormedLength bytes) .invalidCodePoint

/-- Passes over the rest of a string behind its opening quote, without asking what it says. -/
def skipString : Nat → Reading Unit
  | 0 => failHere .endInString
  | fuel + 1 => do
    match ← peek with
    | none => failHere .endInString
    | some b =>
      if b = 0x22 then skip
      else if b = 0x5C then
        skip
        match ← next with
        | none => failHere .endInString
        | some e =>
          if e = 0x75 then
            let _ ← hexEscape
            skipString fuel
          else if (letterEscape? e).isSome then skipString fuel
          else failHere .invalidEscape
      else if b < 0x20 then failHere .controlCharacter
      else
        skip
        skipString fuel

end Reading
end Citator.Json

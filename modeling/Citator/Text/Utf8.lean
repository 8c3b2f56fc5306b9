/-!
# `Citator.Text.Utf8` — bytes read as text

File names and file contents arrive as bytes. Two readings of them are needed: a *strict* one, for
places that accept text only, and a *lossy* one, for places that show whatever is there. Both are
readings of one and the same list, `pieces`: every character in its place, and a hole for every
maximal sequence that no character can be completed from. The strict reading asks for no hole, the
lossy one fills each hole with U+FFFD, so the two cannot disagree about where a character ends.

A hole covers the bytes that could still have begun a character, and the byte that breaks the
sequence is read afresh: `E2 82 27` is one hole and a quote, `ED A0` two holes.
-/

namespace Citator

/-- A string of bytes: a path, or the contents of a file. -/
abbrev Bytes := List UInt8

namespace Utf8

/-! ## 1. One character at a time -/

/-- A character whose first bytes have been read: their bits so far, the number of bytes still
owed, and the interval in which the next one must lie. The interval is narrower than `80–BF` only
after `E0`, `ED`, `F0` and `F4`, where it keeps out overlong forms, surrogates and numbers past
the last code point. -/
structure Pending where
  bits : Nat
  owed : Nat
  low : UInt8
  high : UInt8
  deriving DecidableEq, Repr

/-- What a byte means between two characters. -/
inductive Start where
  | complete (c : Char)
  | opens (p : Pending)
  | broken
  deriving DecidableEq, Repr

/-- The reading of a byte that stands between two characters. -/
def start (b : UInt8) : Start :=
  if b < 0x80 then .complete (Char.ofNat b.toNat)
  else if b < 0xC2 then .broken
  else if b < 0xE0 then .opens ⟨b.toNat - 0xC0, 1, 0x80, 0xBF⟩
  else if b < 0xF0 then
    .opens ⟨b.toNat - 0xE0, 2, if b = 0xE0 then 0xA0 else 0x80, if b = 0xED then 0x9F else 0xBF⟩
  else if b < 0xF5 then
    .opens ⟨b.toNat - 0xF0, 3, if b = 0xF0 then 0x90 else 0x80, if b = 0xF4 then 0x8F else 0xBF⟩
  else .broken

/-- Whether a byte may come next in a pending character. -/
def Pending.takes (p : Pending) (b : UInt8) : Bool := p.low ≤ b && b ≤ p.high

/-- The bits of a pending character after one more byte. -/
def Pending.add (p : Pending) (b : UInt8) : Nat := p.bits * 64 + (b.toNat - 0x80)

/-- The pending character after one more byte that is not its last. -/
def Pending.next (p : Pending) (b : UInt8) : Pending := ⟨p.add b, p.owed - 1, 0x80, 0xBF⟩

/-! ## 2. The whole string -/

/-- The characters of a byte string in order, `none` for each maximal malformed sequence. The
first argument is the character that is being read, if one is. -/
def piecesFrom : Option Pending → Bytes → List (Option Char)
  | none, [] => []
  | some _, [] => [none]
  | none, b :: bs =>
    match start b with
    | .complete c => some c :: piecesFrom none bs
    | .opens p => piecesFrom (some p) bs
    | .broken => none :: piecesFrom none bs
  | some p, b :: bs =>
    if p.takes b then
      if p.owed ≤ 1 then some (Char.ofNat (p.add b)) :: piecesFrom none bs
      else piecesFrom (some (p.next b)) bs
    else
      none ::
        match start b with
        | .complete c => some c :: piecesFrom none bs
        | .opens q => piecesFrom (some q) bs
        | .broken => none :: piecesFrom none bs

/-- The characters of a byte string in order, `none` for each maximal malformed sequence. -/
def pieces (bs : Bytes) : List (Option Char) := piecesFrom none bs

def replacement : Char := '\uFFFD'

/-- The text of a byte string, each malformed sequence shown as U+FFFD. -/
def lossy (bs : Bytes) : String := String.ofList ((pieces bs).map (·.getD replacement))

/-- All characters of a list, if none is missing. -/
def complete? : List (Option Char) → Option (List Char)
  | [] => some []
  | none :: _ => none
  | some c :: rest => (complete? rest).map (c :: ·)

/-- The text of a byte string, if it is well formed. -/
def decode? (bs : Bytes) : Option String := (complete? (pieces bs)).map String.ofList

/-- The number of bytes in front of the first malformed sequence. -/
def wellFormedLength (bs : Bytes) : Nat :=
  (((pieces bs).takeWhile (·.isSome)).filterMap id).foldl (fun n c => n + c.utf8Size) 0

def encode (s : String) : Bytes := s.toList.flatMap String.utf8EncodeChar

/-! ## 3. First facts -/

theorem decode?_nil : decode? [] = some "" := rfl

/-- Where the strict reading succeeds, the lossy one gives the same text. -/
theorem lossy_of_decode? {bs : Bytes} {s : String} (h : decode? bs = some s) : lossy bs = s := by
  have key : ∀ (ps : List (Option Char)) (cs : List Char), complete? ps = some cs →
      ps.map (·.getD replacement) = cs := by
    intro ps
    induction ps with
    | nil => intro cs h; simp [complete?] at h; simp [h]
    | cons p ps ih =>
      intro cs h
      cases p with
      | none => simp [complete?] at h
      | some c =>
        obtain ⟨rest, hrest, rfl⟩ := Option.map_eq_some_iff.1 h
        simp [ih rest hrest]
  obtain ⟨cs, hcs, rfl⟩ := Option.map_eq_some_iff.1 h
  simp [lossy, key _ _ hcs]

end Utf8
end Citator

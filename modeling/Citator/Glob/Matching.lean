import Citator.Glob.Pattern
import Citator.Path.Relative

/-!
# `Citator.Glob.Matching` — which paths a glob matches

A token takes bytes of a path one after the other, often in several ways. What a sequence of tokens
can have taken from the front of a path is therefore a set of places: before the first byte, or behind
one of the bytes. `Places` keeps such a set as one flag for each place, and the meaning of a token is a
function on it: given where the tokens before it can end, where can it end (`Token.past`)? A glob
matches a path if the place behind the last byte is reached from the place before the first. The work
is the number of tokens times the length of the path, however many stars stand in a row.

Matching is bytewise. A literal character takes its encoding, but `?`, `*` and classes know bytes
only, so a class that holds a character outside ASCII holds the bytes of its encoding.

One flag separates the two uses of globs: in ignore rules `?` and `*` stop at a separator, elsewhere
they do not.
-/

namespace Citator.Glob

/-! ## 1. Places -/

/-- A set of places in a string: a flag for the place before the first byte and one for the place
behind each byte. -/
abbrev Places := List Bool

def Places.front (s : Bytes) : Places := true :: s.map fun _ => false

def Places.none (s : Bytes) : Places := false :: s.map fun _ => false

def Places.either (m n : Places) : Places := List.zipWith (· || ·) m n

/-- The places one byte further, where that byte satisfies `p`. -/
def pastByte (p : UInt8 → Bool) (s : Bytes) (m : Places) : Places :=
  false :: List.zipWith (fun b here => here && p b) s m

def pastBytes (literal s : Bytes) (m : Places) : Places :=
  literal.foldl (fun m c => pastByte (· == c) s m) m

/-- The places any number of bytes further, where all of those satisfy `p`. `reached` says that a run
of such bytes leads up to the first place. -/
def pastRunFrom (p : UInt8 → Bool) (reached : Bool) : Bytes → Places → Places
  | _, [] => []
  | [], here :: _ => [reached || here]
  | b :: bs, here :: m => (reached || here) :: pastRunFrom p ((reached || here) && p b) bs m

/-- The places any number of bytes further, where all of those satisfy `p`. -/
def pastRun (p : UInt8 → Bool) (s : Bytes) (m : Places) : Places := pastRunFrom p false s m

def isSeparator (b : UInt8) : Bool := b == Path.slash

/-- The places from which whole directories lead up to somewhere: the given ones, and those behind
any later separator. -/
def pastDirs (s : Bytes) (m : Places) : Places :=
  m.either (pastByte isSeparator s (pastRun (fun _ => true) s m))

/-! ## 2. Classes -/

/-- The intervals of bytes that a range of characters stands for: the last byte of its first
character and the first byte of its last one are the ends of an interval, all other bytes of the two
stand for themselves. For ASCII this is the range itself. -/
def byteIntervals (range : Char × Char) : List (UInt8 × UInt8) :=
  let single (b : UInt8) := (b, b)
  let first := String.utf8EncodeChar range.1
  if range.1 = range.2 then first.map single
  else
    match first.getLast?, String.utf8EncodeChar range.2 with
    | some low, high :: more => first.dropLast.map single ++ (low, high) :: more.map single
    | _, _ => []

def classHolds (negated : Bool) (ranges : List (Char × Char)) (b : UInt8) : Bool :=
  ((ranges.flatMap byteIntervals).any fun i => i.1 ≤ b && b ≤ i.2) != negated

/-! ## 3. Tokens, sequences and choices -/

mutual

/-- Whether a token is a choice with nothing to choose from. -/
def Token.isVoid : Token → Bool
  | .choice bs => allVoid bs
  | _ => false

/-- Whether nothing but void tokens stand in a branch. -/
def voidBranch : List Token → Bool
  | [] => true
  | t :: ts => t.isVoid && voidBranch ts

def allVoid : List (List Token) → Bool
  | [] => true
  | b :: bs => voidBranch b && allVoid bs

end

mutual

/-- Where a token can end that starts in one of the given places. With `inSegment`, `?` and `*` stop
at separators. -/
def Token.past (inSegment : Bool) (s : Bytes) : Token → Places → Places
  | .literal c, m => pastBytes (String.utf8EncodeChar c) s m
  | .anyByte, m => pastByte (fun b => !(inSegment && isSeparator b)) s m
  | .anyRun, m => pastRun (fun b => !(inSegment && isSeparator b)) s m
  | .leadingDirs, m => pastDirs s m
  | .trailingDirs, m => pastRun (fun _ => true) s (pastByte isSeparator s m)
  | .innerDirs, m => pastDirs s (pastByte isSeparator s m)
  | .oneOf negated ranges, m => pastByte (classHolds negated ranges) s m
  | .choice bs, m => if allVoid bs then m else branchesPast inSegment s bs m

/-- Where the branches of a choice can end. Void branches are no branches. -/
def branchesPast (inSegment : Bool) (s : Bytes) : List (List Token) → Places → Places
  | [], _ => .none s
  | b :: bs, m =>
    (if voidBranch b then .none s else seqPast inSegment s b m).either (branchesPast inSegment s bs m)

def seqPast (inSegment : Bool) (s : Bytes) : List Token → Places → Places
  | [], m => m
  | t :: ts, m => seqPast inSegment s ts (t.past inSegment s m)

end

/-- Whether the tokens match the whole string. A glob of nothing but `**` matches everything. -/
def matchesTokens (inSegment : Bool) (ts : List Token) (s : Bytes) : Bool :=
  match ts with
  | [.leadingDirs] => true
  | ts => (seqPast inSegment s ts (.front s)).getLast? == some true

end Citator.Glob

namespace Citator

open Glob

/-! ## 4. Globs and sets of globs -/

/-- A glob that has been read. -/
structure Glob where
  text : String
  tokens : List Token
  /-- Whether `?` and `*` stop at separators. -/
  inSegment : Bool := false

namespace Glob

/-- Reads a glob whose `*` crosses separators and whose brackets must be closed. -/
def ofString (text : String) : Except ParseError Glob :=
  (tokensOf false text).map fun ts => { text, tokens := ts }

/-- Whether the glob matches the whole of a path. -/
def isMatch (g : Glob) (p : Path) : Bool := matchesTokens g.inSegment g.tokens p.bytes

/-- The characters of a sequence of literals, if it is one. -/
def literals? : List Token → Option (List Char)
  | [] => some []
  | .literal c :: ts => (literals? ts).map (c :: ·)
  | _ :: _ => none

/-- Whether a glob is looked up by a path's last component alone when it stands in a set: `**/name`,
`*.ext` and `**/*.ext`, and any glob that ends in an extension and is neither literal throughout nor
literal after a leading `*` that crosses separators. -/
def asksForName (inSegment : Bool) (ts : List Token) : Bool :=
  match ts with
  | .leadingDirs :: .literal c :: rest =>
    match literals? (.literal c :: rest) with
    | some cs => !cs.contains '/'
    | none => true
  | .leadingDirs :: .anyRun :: rest => inSegment || rest.length = 1 || (literals? rest).isNone
  | .leadingDirs :: _ => true
  | .anyRun :: rest => inSegment || rest.length = 1 || (literals? rest).isNone
  | ts => (literals? ts).isNone

def endsInDot (ts : List Token) : Bool :=
  match ts.getLast? with
  | some (.literal c) => c == '.'
  | _ => false

/-- Whether a path ends in `..`, which names nothing. -/
def endsUpward (p : Path) : Bool :=
  (p.bytes.reverse.takeWhile fun b => !isSeparator b) == [Path.dot, Path.dot]

/-- Whether the glob matches a path as a member of a set. A path that ends in `..` has no name there,
so a glob that is looked up by the name passes it over. -/
def isMatchInSet (g : Glob) (p : Path) : Bool :=
  g.isMatch p && !(endsUpward p && endsInDot g.tokens && asksForName g.inSegment g.tokens)

end Glob
end Citator

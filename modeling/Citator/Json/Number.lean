import Citator.Json.Reading
import Citator.Decimal.Shortest

/-!
# `Citator.Json.Number` — numbers in a text

A number is an integer if it is written as one and fits in 64 bits, signed below zero and unsigned
above; everything else is a floating-point number, `-0` included. Floating-point numbers occur in
messages only, so a number that is read carries the *text* of its value and not the value.

The value is what double precision gives for `significand · 10 ^ exponent`: the significand is made of
the digits up to the first that no longer fits in 64 bits, and one multiplication or division by a
power of ten follows. That is close to the number that is written, and not always the closest.
-/

namespace Citator.Json

/-- How floating-point numbers are written in messages: positionally from `0.00001` to below
`10 ^ 16`, and otherwise with an exponent. -/
def floatFormat : Decimal.Format := ⟨-5, 15⟩

def maxSize : Nat := 0xFFFFFFFFFFFFFFFF

/-- The greatest magnitude of a negative integer of 64 bits. -/
def maxMagnitude : Nat := 0x8000000000000000

/-- The greatest exponent of a number, a signed integer of 32 bits. -/
def maxExponent : Nat := 0x7FFFFFFF

namespace Reading

/-! ## 1. Values -/

/-- `f · 10 ^ exponent` in double precision; none if that is too great. Powers beyond the table are
taken in several divisions. -/
def scaleFloat? : Nat → Float → Int → Option Float
  | 0, f, _ => some f
  | rounds + 1, f, exponent =>
    if exponent.natAbs ≤ 308 then
      if 0 ≤ exponent then
        let g := f * Float.ofScientific 1 false exponent.natAbs
        if g.isInf then none else some g
      else some (f / Float.ofScientific 1 false exponent.natAbs)
    else if f == 0.0 then some f
    else if 0 ≤ exponent then none
    else scaleFloat? rounds (f / Float.ofScientific 1 false 308) (exponent + 308)

def floatOfParts (negative : Bool) (significand : Nat) (exponent : Int) : Reading Found :=
  match scaleFloat? 8 significand.toUInt64.toFloat exponent with
  | none => failHere .numberOutOfRange
  | some f =>
    return .float (floatFormat.double (if negative then -f else f).toBits.toNat)

/-- The digits that fit in 64 bits behind a significand, and the number of those that are left. -/
def accumulate : Nat → Bytes → Nat × Nat
  | significand, [] => (significand, 0)
  | significand, b :: bs =>
    let more := significand * 10 + (b.toNat - 0x30)
    if maxSize < more then (significand, bs.length + 1) else accumulate more bs

/-! ## 2. Exponent, fraction, integer -/

/-- The digits of an exponent. Its size is limited to 31 bits; beyond them a number is out of range if
the exponent is positive, and zero if it is negative or the significand is zero. Answers with `none`
for such a zero. -/
def exponentDigits (zero positive : Bool) : Nat → Nat → Reading (Option Nat)
  | 0, _ => failHere .endInValue
  | fuel + 1, soFar => do
    match ← peek with
    | some b =>
      if isDigit b then
        skip
        let more := soFar * 10 + (b.toNat - 0x30)
        if maxExponent < more then
          if !zero && positive then failHere .numberOutOfRange
          else
            let _ ← span isDigit
            return none
        else exponentDigits zero positive fuel more
      else return some soFar
    | none => return some soFar

/-- The exponent of a number, from its letter on. -/
def exponentPart (negative : Bool) (significand : Nat) (start : Int) : Reading Found := do
  skip
  let positive ← (do
    match ← peek with
    | some b =>
      if b = 0x2B then
        skip
        return true
      else if b = 0x2D then
        skip
        return false
      else return true
    | none => return true)
  match ← next with
  | none => failHere .endInValue
  | some b =>
    if !isDigit b then failHere .invalidNumber
    else
      match ← bounded fun n => exponentDigits (significand == 0) positive n (b.toNat - 0x30) with
      | none => floatOfParts negative 0 0
      | some e => floatOfParts negative significand (if positive then start + e else start - e)

/-- What follows the digits of a fraction, or of an integer that did not fit. -/
def exponentOrEnd (negative : Bool) (significand : Nat) (exponent : Int) : Reading Found := do
  match ← peek with
  | some b =>
    if b = 0x65 ∨ b = 0x45 then exponentPart negative significand exponent
    else floatOfParts negative significand exponent
  | none => floatOfParts negative significand exponent

/-- The fraction of a number, from its point on. -/
def fractionPart (negative : Bool) (significand : Nat) (start : Int) : Reading Found := do
  skip
  let digits ← span isDigit
  if digits = [] then
    match ← peek with
    | some _ => failAtNext .invalidNumber
    | none => failAtNext .endInValue
  else
    let (significand, left) := accumulate significand digits
    exponentOrEnd negative significand (start - (digits.length - left : Nat))

/-- What follows the digits of an integer, of which `left` did not fit. -/
def afterInteger (negative : Bool) (significand left : Nat) : Reading Found := do
  match ← peek with
  | some b =>
    if b = 0x2E then fractionPart negative significand left
    else if b = 0x65 ∨ b = 0x45 then exponentPart negative significand left
    else integerEnd
  | none => integerEnd
where
  /-- The end of a number without fraction and exponent. -/
  integerEnd : Reading Found :=
    if left ≠ 0 then floatOfParts negative significand left
    else if !negative then return .integer significand
    else if significand = 0 ∨ maxMagnitude < significand then floatOfParts true significand 0
    else return .integer (-significand)

def number (negative : Bool) : Reading Found := do
  match ← next with
  | none => failHere .endInValue
  | some b =>
    if b = 0x30 then
      match ← peek with
      | some d => if isDigit d then failAtNext .invalidNumber else afterInteger negative 0 0
      | none => afterInteger negative 0 0
    else if isDigit b then
      let digits ← span isDigit
      let (significand, left) := accumulate (b.toNat - 0x30) digits
      afterInteger negative significand left
    else failHere .invalidNumber

/-! ## 3. Numbers nobody asks about -/

def skipExponent : Reading Unit := do
  skip
  let sign ← peek
  if sign = some 0x2B ∨ sign = some 0x2D then skip
  match ← next with
  | some b => if isDigit b then let _ ← span isDigit else failHere .invalidNumber
  | none => failHere .invalidNumber

def skipExponentIfAny : Reading Unit := do
  match ← peek with
  | some b => if b = 0x65 ∨ b = 0x45 then skipExponent
  | none => return ()

/-- Passes over a fraction and an exponent if they follow. -/
def skipAfterInteger : Reading Unit := do
  match ← peek with
  | some b =>
    if b = 0x2E then
      skip
      let digits ← span isDigit
      if digits = [] then failAtNext .invalidNumber else skipExponentIfAny
    else skipExponentIfAny
  | none => return ()

def skipNumber : Reading Unit := do
  match ← next with
  | none => failHere .invalidNumber
  | some b =>
    if b = 0x30 then
      match ← peek with
      | some d => if isDigit d then failAtNext .invalidNumber else skipAfterInteger
      | none => skipAfterInteger
    else if isDigit b then
      let _ ← span isDigit
      skipAfterInteger
    else failHere .invalidNumber

end Reading
end Citator.Json

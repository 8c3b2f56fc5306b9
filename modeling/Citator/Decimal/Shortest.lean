/-!
# `Citator.Decimal.Shortest` — the fewest digits that name a binary number

A binary floating-point number stands for an interval of reals: those that round to it. Of the
decimals in that interval the one with the fewest digits is the number's name, and of several with
the same number of digits the one nearest to it.

The search is exact. The number is `m · 2 ^ q`; for one digit, two digits, and so on up to seventeen
it looks at the two neighbours of the number on the grid of decimals with that many digits, in natural
numbers throughout. A grid has a point in the interval only if one of those two is, so the first grid
with a hit has the fewest digits.
-/

namespace Citator.Decimal

/-! ## 1. The number and its interval -/

/-- A positive number `m · 2 ^ q`, and whether the number below it is half as far away as the one
above, as it is at a power of two. -/
structure Binary where
  m : Nat
  q : Int
  narrowBelow : Bool
  deriving DecidableEq, Repr

/-- The positive number with the given exponent and fraction fields in double precision. -/
def Binary.ofFields (expField fraction : Nat) : Binary :=
  if expField = 0 then ⟨fraction, -1074, false⟩
  else ⟨fraction + Nat.pow 2 52, expField - 1075, fraction == 0 && decide (1 < expField)⟩

/-- `a · 2 ^ q · 10 ^ k` as a fraction of natural numbers. -/
def scaled (a : Nat) (q k : Int) : Nat × Nat :=
  (a * Nat.pow 2 q.toNat * Nat.pow 10 k.toNat,
    Nat.pow 2 (-q).toNat * Nat.pow 10 (-k).toNat)

/-- Whether `d` on the grid of `10 ^ k` rounds to the number: its distance is less than half the
distance to the next number on its side, or just half if `m` is even. Everything is in quarters of
the unit in the last place. -/
def Binary.holds (b : Binary) (d : Nat) (k : Int) : Bool :=
  let (num, den) := scaled (4 * d) (-b.q) k
  let low := 4 * b.m - (if b.narrowBelow then 1 else 2)
  let high := 4 * b.m + 2
  if b.m % 2 = 0 then decide (low * den ≤ num) && decide (num ≤ high * den)
  else decide (low * den < num) && decide (num < high * den)

/-! ## 2. The search -/

/-- The greatest `e` with `10 ^ e` not above the number, found by counting up from below. -/
def Binary.exponent (b : Binary) : Int :=
  let reaches (e : Int) : Bool :=
    let (num, den) := scaled b.m b.q (-e)
    decide (den ≤ num)
  let rec up : Nat → Int → Int
    | 0, e => e
    | n + 1, e => if reaches (e + 1) then up n (e + 1) else e
  up 640 (-330)

/-- The better of the two neighbours on the grid of `10 ^ k`, if one of them names the number: the
nearer one if both do, the even one if they are equally near. -/
def Binary.onGrid? (b : Binary) (k : Int) : Option Nat :=
  let (num, den) := scaled b.m b.q (-k)
  let below := num / den
  let above := below + 1
  match b.holds below k, b.holds above k with
  | true, true =>
    let r := num % den
    if 2 * r < den ∨ (2 * r = den ∧ below % 2 = 0) then some below else some above
  | true, false => some below
  | false, true => some above
  | false, false => none

/-- The digits and the exponent of the last one, trying `n` digits and then more. -/
def Binary.search (b : Binary) (e : Int) : Nat → Nat → Nat × Int
  | 0, n => (scaled b.m b.q (n - 1 - e) |> fun f => f.1 / f.2, e - n + 1)
  | tries + 1, n =>
    match b.onGrid? (e - n + 1) with
    | some d => (d, e - n + 1)
    | none => b.search e tries (n + 1)

def dropZeros : Nat → Nat × Int → Nat × Int
  | 0, r => r
  | n + 1, (d, k) => if d % 10 = 0 ∧ d ≠ 0 then dropZeros n (d / 10, k + 1) else (d, k)

/-- The shortest decimal `d · 10 ^ k` that names a positive number. -/
def Binary.shortest (b : Binary) : Nat × Int := dropZeros 20 (b.search b.exponent 17 1)

/-! ## 3. The text -/

/-- How a decimal is written out. -/
structure Format where
  /-- The least and the greatest exponent of the first digit that is written positionally. -/
  least : Int
  greatest : Int

/-- The decimal `d · 10 ^ k` as text. There is always a digit on either side of a point, and an
exponent has a sign and no zeros in front. -/
def Format.text (f : Format) (d : Nat) (k : Int) : String :=
  let digits := toString d
  let e := k + digits.length - 1
  if f.least ≤ e ∧ e ≤ f.greatest then
    if 0 ≤ k then digits ++ String.ofList (List.replicate k.toNat '0') ++ ".0"
    else if 0 ≤ e then
      let cut := (e + 1).toNat
      String.ofList (digits.toList.take cut) ++ "." ++ String.ofList (digits.toList.drop cut)
    else "0." ++ String.ofList (List.replicate (-e - 1).toNat '0') ++ digits
  else
    let front := String.ofList (digits.toList.take 1)
    let back := String.ofList (digits.toList.drop 1)
    (if back = "" then front else front ++ "." ++ back) ++ (if 0 ≤ e then "e+" else "e-") ++
      toString e.natAbs

/-- A finite double by its bits as text: the shortest decimal that names it. -/
def Format.double (f : Format) (bits : Nat) : String :=
  let sign := if bits / Nat.pow 2 63 % 2 = 1 then "-" else ""
  let expField := bits / Nat.pow 2 52 % Nat.pow 2 11
  let fraction := bits % Nat.pow 2 52
  if expField = 0 ∧ fraction = 0 then sign ++ "0.0"
  else
    let (d, k) := (Binary.ofFields expField fraction).shortest
    sign ++ f.text d k

end Citator.Decimal

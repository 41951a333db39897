import Rsrc.Decimal.Binary64

/-!
# Shortest decimal digits

The decimal with the fewest digits that reads back as a given `Float`, and of those the nearest
one. Every real strictly between the midpoints to the neighbouring floats reads back; the midpoints
themselves do when the mantissa is even. For one, two, up to seventeen digits the two neighbours of
the value on that decimal grid are tried; the first grid with a hit wins.
-/

namespace Rsrc.Decimal

/-- What an exact tie between two shortest candidates goes to. -/
inductive Tie where
  | up
  | even
  deriving DecidableEq, Repr

/-- Decimal digits, most significant first, and the place of the point: the number is
`0.d₁d₂… * 10 ^ point`. The first and the last digit are not zero. -/
structure Digits where
  digits : List Nat
  point : Int
  deriving Repr, DecidableEq

namespace Shortest

/-- The value, the midpoint below and the midpoint above, in units of `2 ^ scale`. -/
structure Interval where
  low : Nat
  value : Nat
  high : Nat
  scale : Int
  closed : Bool

/-- The gap below a power of two is half the gap above it. -/
def interval (mantissa : Nat) (exponent : Int) : Interval :=
  let narrow := mantissa == Binary64.hiddenBit && exponent > Binary64.minExponent
  { low := 4 * mantissa - (if narrow then 1 else 2)
    value := 4 * mantissa
    high := 4 * mantissa + 2
    scale := exponent - 2
    closed := mantissa % 2 == 0 }

/-- Factors that compare a number of binary units with a number of decimal units: `x * 2 ^ scale`
against `d * 10 ^ grid` is `x * first` against `d * second`. -/
def factors (scale grid : Int) : Nat × Nat :=
  (Nat.pow 2 scale.toNat * Nat.pow 10 (-grid).toNat, Nat.pow 10 grid.toNat * Nat.pow 2 (-scale).toNat)

/-- The exponent of the leading decimal digit. The estimate from the binary logarithm is off by at
most one. -/
def magnitude (i : Interval) : Int :=
  let estimate := ((i.value.log2 : Int) + i.scale) * 30103 / 100000
  let reaches (e : Int) : Bool :=
    let (a, b) := factors i.scale e
    b ≤ i.value * a
  if !reaches estimate then estimate - 1
  else if reaches (estimate + 1) then estimate + 1
  else estimate

/-- The candidate on the grid `10 ^ grid`, if the interval holds one. -/
def onGrid (tie : Tie) (i : Interval) (grid : Int) : Option Nat :=
  let (a, b) := factors i.scale grid
  let inside (d : Nat) : Bool :=
    if i.closed then i.low * a ≤ d * b && d * b ≤ i.high * a
    else i.low * a < d * b && d * b < i.high * a
  let below := i.value * a / b
  let above := below + 1
  match inside below, inside above with
  | false, false => none
  | true, false => some below
  | false, true => some above
  | true, true =>
    let short := i.value * a - below * b
    let excess := above * b - i.value * a
    if short < excess then some below
    else if excess < short then some above
    else match tie with
      | .up => some above
      | .even => some (if below % 2 == 0 then below else above)

/-- The first hit when `count` grids are left to try, the next one with `digits` digits. -/
def firstHit (tie : Tie) (i : Interval) (lead : Int) : Nat → Nat → Nat × Int
  | 0, _ => (0, 0)
  | count + 1, digits =>
    let grid := lead - digits + 1
    match onGrid tie i grid with
    | some d => (d, grid)
    | none => firstHit tie i lead count (digits + 1)

/-- The decimal digits of a natural, least significant first. -/
def lowDigits (n : Nat) : List Nat := (Nat.toDigits 10 n).reverse.map fun c => c.toNat - 48

end Shortest

open Shortest in
/-- The shortest digits of `mantissa * 2 ^ exponent`, which is not zero. -/
def shortest (tie : Tie) (mantissa : Nat) (exponent : Int) : Digits :=
  let i := interval mantissa exponent
  let (d, grid) := firstHit tie i (magnitude i) 17 1
  let low := lowDigits d
  { digits := (low.dropWhile (· == 0)).reverse
    point := grid + low.length }

end Rsrc.Decimal

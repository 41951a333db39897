/-!
# Binary floating point as exact numbers

A finite `Float` is an integer times a power of two. This module takes a `Float` apart into the
two, rounds a quotient of naturals to the nearest `Float`, and computes the exact remainder.
-/

namespace Rsrc.Decimal

/-- The classes of a `Float`. A finite one is `mantissa * 2 ^ exponent`, negated if `negative`. -/
inductive Binary64 where
  | nan
  | infinite (negative : Bool)
  | finite (negative : Bool) (mantissa : Nat) (exponent : Int)
  deriving Repr

namespace Binary64

/-- The exponent of the smallest positive `Float`. -/
def minExponent : Int := -1074

/-- The mantissa of a number that is not subnormal has its top bit here, at place 52. -/
def hiddenBit : Nat := 0x10000000000000

def ofFloat (x : Float) : Binary64 :=
  let bits := x.toBits.toNat
  let negative := bits / (2048 * hiddenBit) == 1
  let biased : Nat := bits / hiddenBit % 2048
  let fraction := bits % hiddenBit
  if biased == 2047 then
    if fraction == 0 then .infinite negative else .nan
  else if biased == 0 then .finite negative fraction minExponent
  else .finite negative (hiddenBit + fraction) (biased - 1075)

/-- The `Float` with sign, biased exponent and fraction as given. -/
def assemble (negative : Bool) (biased fraction : Nat) : Float :=
  let sign := if negative then 2048 else 0
  Float.ofBits (UInt64.ofNat ((sign + biased) * hiddenBit + fraction))

/-- The integer nearest to `num / den`, an exact half going to the even neighbour. -/
def roundDiv (num den : Nat) : Nat :=
  let q := num / den
  let r := num % den
  if 2 * r > den || (2 * r == den && q % 2 == 1) then q + 1 else q

/-- `num / den` counted in units of `2 ^ exponent`, rounded to the nearest. -/
def unitsOf (num den : Nat) (exponent : Int) : Nat :=
  roundDiv (num * Nat.pow 2 (-exponent).toNat) (den * Nat.pow 2 exponent.toNat)

/-- Whether `num / den` is less than `2 ^ exponent`. -/
def isBelow (num den : Nat) (exponent : Int) : Bool :=
  num * Nat.pow 2 (-exponent).toNat < den * Nat.pow 2 exponent.toNat

/-- The `Float` nearest to `num / den` with the given sign. -/
def ofRatio (negative : Bool) (num den : Nat) : Float :=
  if num == 0 || den == 0 then assemble negative 0 0
  else
    let magnitude : Int := (num.log2 : Int) - den.log2
    -- `2 ^ (magnitude - 1) < num / den < 2 ^ (magnitude + 1)`
    let exponent :=
      max minExponent (if isBelow num den magnitude then magnitude - 53 else magnitude - 52)
    let units := unitsOf num den exponent
    let (units, exponent) :=
      if units == 2 * hiddenBit then (hiddenBit, exponent + 1) else (units, exponent)
    if units < hiddenBit then assemble negative 0 units
    else
      let biased := (exponent + 1075).toNat
      if biased < 2047 then assemble negative biased (units - hiddenBit)
      else assemble negative 2047 0

end Binary64

/-- The `Float` nearest to `mantissa * 10 ^ exponent`. Numbers that are out of range by far are told
apart first, so that no power is larger than it needs to be. -/
def ofDecimal (negative : Bool) (mantissa : Nat) (exponent : Int) : Float :=
  if mantissa == 0 || exponent + mantissa.log2 < -400 then Binary64.assemble negative 0 0
  else if 400 < exponent then Binary64.assemble negative 2047 0
  else
    Binary64.ofRatio negative (mantissa * Nat.pow 10 exponent.toNat) (Nat.pow 10 (-exponent).toNat)

/-- The exact remainder of a division whose quotient is rounded toward zero. It has the sign of
the dividend. -/
def remainder (x y : Float) : Float :=
  match Binary64.ofFloat x, Binary64.ofFloat y with
  | .finite negative m p, .finite _ n q =>
    if n == 0 then 0.0 / 0.0
    else
      let least := min p q
      let r := (m * Nat.pow 2 (p - least).toNat) % (n * Nat.pow 2 (q - least).toNat)
      Binary64.ofRatio negative (r * Nat.pow 2 least.toNat) (Nat.pow 2 (-least).toNat)
  | .finite .., .infinite _ => x
  | _, _ => 0.0 / 0.0

end Rsrc.Decimal

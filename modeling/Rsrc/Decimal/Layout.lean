import Rsrc.Decimal.Shortest

/-!
# Number layouts

A layout says how the shortest digits of a `Float` are written: where positional notation ends, how
a whole number is marked, how an exponent looks, and what stands for numbers that are not finite.
-/

namespace Rsrc.Decimal

structure Layout where
  tie : Tie
  /-- Positional notation is used when the point lies in this range; `none` means always. -/
  positional : Option (Int × Int)
  /-- What follows the digits of a whole number. -/
  whole : String
  /-- What stands before an exponent that is not negative, and before one that is. -/
  exponentMark : String
  negativeExponentMark : String
  nan : String
  infinity : String
  negativeInfinity : String

namespace Layout

/-- Always positional, whole numbers bare: the text of a value in a message or a string. -/
def display : Layout where
  tie := .up
  positional := none
  whole := ""
  exponentMark := "e"
  negativeExponentMark := "e-"
  nan := "NaN"
  infinity := "inf"
  negativeInfinity := "-inf"

/-- Numbers of a JSON document, where a number that is not finite is `null`. -/
def json : Layout where
  tie := .even
  positional := some (-4, 16)
  whole := ".0"
  exponentMark := "e+"
  negativeExponentMark := "e-"
  nan := "null"
  infinity := "null"
  negativeInfinity := "null"

/-- Numbers of a YAML document. -/
def yaml : Layout where
  tie := .even
  positional := some (-4, 16)
  whole := ".0"
  exponentMark := "e"
  negativeExponentMark := "e-"
  nan := ".nan"
  infinity := ".inf"
  negativeInfinity := "-.inf"

def isPositional (l : Layout) (point : Int) : Bool :=
  match l.positional with
  | none => true
  | some (low, high) => low ≤ point && point ≤ high

def digitText (digits : List Nat) : String :=
  String.ofList (digits.map fun d => Char.ofNat (48 + d))

def zeros (n : Nat) : String := String.ofList (List.replicate n '0')

/-- Digits with the point at its place. -/
def positionalText (l : Layout) (d : Digits) : String :=
  if d.point ≤ 0 then "0." ++ zeros (-d.point).toNat ++ digitText d.digits
  else
    let split := d.point.toNat
    if d.digits.length ≤ split then
      digitText d.digits ++ zeros (split - d.digits.length) ++ l.whole
    else digitText (d.digits.take split) ++ "." ++ digitText (d.digits.drop split)

/-- One digit before the point, and an exponent. -/
def scientificText (l : Layout) (d : Digits) : String :=
  let exponent := d.point - 1
  let mark := if exponent < 0 then l.negativeExponentMark else l.exponentMark
  let fraction := d.digits.drop 1
  digitText (d.digits.take 1) ++ (if fraction.isEmpty then "" else "." ++ digitText fraction)
    ++ mark ++ Nat.repr exponent.natAbs

def sign (negative : Bool) : String := if negative then "-" else ""

def render (l : Layout) (x : Float) : String :=
  match Binary64.ofFloat x with
  | .nan => l.nan
  | .infinite negative => if negative then l.negativeInfinity else l.infinity
  | .finite negative mantissa exponent =>
    sign negative ++
      if mantissa == 0 then "0" ++ l.whole
      else
        let d := shortest l.tie mantissa exponent
        if l.isPositional d.point then l.positionalText d else l.scientificText d

end Layout

end Rsrc.Decimal

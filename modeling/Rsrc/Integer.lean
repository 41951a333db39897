import Rsrc.Text.Blank

/-!
# Signed 64-bit integers

Arithmetic that fails instead of wrapping around. Every operation computes the exact result as an
`Int` and keeps it if it is in range.
-/

namespace Rsrc.Integer

/-- The word with the given value, if there is one. -/
def ofInt? (n : Int) : Option Int64 :=
  if Int64.minValue.toInt ≤ n ∧ n ≤ Int64.maxValue.toInt then some (Int64.ofInt n) else none

def add? (a b : Int64) : Option Int64 := ofInt? (a.toInt + b.toInt)

def sub? (a b : Int64) : Option Int64 := ofInt? (a.toInt - b.toInt)

def mul? (a b : Int64) : Option Int64 := ofInt? (a.toInt * b.toInt)

def neg? (a : Int64) : Option Int64 := ofInt? (-a.toInt)

def abs? (a : Int64) : Option Int64 := ofInt? a.toInt.natAbs

/-- The quotient rounded toward zero; the divisor is not zero. -/
def div? (a b : Int64) : Option Int64 := ofInt? (a.toInt.tdiv b.toInt)

/-- The remainder with the sign of the dividend; the divisor is not zero. Fails where the quotient
does. -/
def rem? (a b : Int64) : Option Int64 :=
  (div? a b).bind fun _ => ofInt? (a.toInt.tmod b.toInt)

/-- A shift amount between 0 and 63. -/
def shift? (b : Int64) : Option Int64 := if 0 ≤ b ∧ b < 64 then some b else none

def shiftLeft? (a b : Int64) : Option Int64 := (shift? b).map (a <<< ·)

def shiftRight? (a b : Int64) : Option Int64 := (shift? b).map (a >>> ·)

/-- The power of an integer. A base other than -1, 0 and 1 leaves the range within 64 factors, and
those three only ask whether the exponent is zero or odd, so large exponents are cut down first. -/
def pow? (base : Int64) (exponent : Nat) : Option Int64 :=
  ofInt? (Int.pow base.toInt (if exponent < 64 then exponent else 64 + exponent % 2))

/-- The value of a sequence of decimal digits. -/
def digits? (cs : List Char) : Option Nat :=
  if cs.isEmpty then none
  else cs.foldlM (fun n c => if c.isDigit then some (n * 10 + (c.toNat - '0'.toNat)) else none) 0

/-- Reads an optional sign and decimal digits. -/
def read? (cs : List Char) : Option Int64 :=
  match cs with
  | '-' :: rest => (digits? rest).bind fun n => ofInt? (-n)
  | '+' :: rest => (digits? rest).bind fun n => ofInt? n
  | _ => (digits? cs).bind fun n => ofInt? n

/-- The value of a hexadecimal digit. -/
def hexDigit? (c : Char) : Option Nat :=
  if c.isDigit then some (c.toNat - '0'.toNat)
  else if 'a' ≤ c ∧ c ≤ 'f' then some (c.toNat - 'a'.toNat + 10)
  else if 'A' ≤ c ∧ c ≤ 'F' then some (c.toNat - 'A'.toNat + 10)
  else none

/-- The value of a sequence of hexadecimal digits. -/
def hexDigits? (cs : List Char) : Option Nat :=
  if cs.isEmpty then none
  else cs.foldlM (fun n c => (hexDigit? c).map (n * 16 + ·)) 0

/-- Reads hexadecimal digits as a 64-bit pattern. -/
def readHex? (cs : List Char) : Option Int64 :=
  (hexDigits? cs).bind fun n => if n < 0x10000000000000000 then some (Int64.ofNat n) else none

end Rsrc.Integer

import Rsrc.Value
import Rsrc.Text.Case
import Rsrc.Text.Hash

/-!
# Built-in routines

The routines that are known everywhere. Arguments beyond the parameters are ignored.
-/

namespace Rsrc

inductive Builtin where
  | hash
  | sin
  | cos
  | tan
  | sqrt
  | radians
  | degrees
  | pow
  | abs
  | min
  | max
  | floor
  | ceil
  | round
  | integer
  | decimal
  | percentage
  | string
  | boolean
  | reference
  | length
  | upper
  | lower
  | rgb
  | rgba
  deriving DecidableEq, Repr

namespace Builtin

variable (f : Builtin)

def all : List Builtin :=
  [hash, sin, cos, tan, sqrt, radians, degrees, pow, abs, min, max, floor, ceil, round, integer,
    decimal, percentage, string, boolean, reference, length, upper, lower, rgb, rgba]

def name : Builtin → String
  | hash => "hash"
  | sin => "sin"
  | cos => "cos"
  | tan => "tan"
  | sqrt => "sqrt"
  | radians => "radians"
  | degrees => "degrees"
  | pow => "pow"
  | abs => "abs"
  | min => "min"
  | max => "max"
  | floor => "floor"
  | ceil => "ceil"
  | round => "round"
  | integer => "integer"
  | decimal => "decimal"
  | percentage => "percentage"
  | string => "string"
  | boolean => "boolean"
  | reference => "reference"
  | length => "length"
  | upper => "upper"
  | lower => "lower"
  | rgb => "rgb"
  | rgba => "rgba"

def parameters : Builtin → List String
  | hash | integer | decimal | percentage | string | boolean => ["value"]
  | sin | cos | tan | sqrt | radians | degrees | abs | floor | ceil | round => ["x"]
  | pow => ["base", "exponent"]
  | min | max => ["a", "b"]
  | reference => ["id"]
  | length | upper | lower => ["text"]
  | rgb => ["red", "green", "blue"]
  | rgba => ["red", "green", "blue", "alpha"]

def invalid (expected : String) (found : Value) : EvalError :=
  .invalidArgument f.name expected found.kindName

/-! ### Arguments by kind -/

def integerOf (v : Value) : Except EvalError Int64 :=
  match v.asInteger with
  | some n => .ok n
  | none => .error (f.invalid "an integer" v)

def decimalOf (v : Value) : Except EvalError Float :=
  match v.asDecimal with
  | some x => .ok x
  | none => .error (f.invalid "a number" v)

def textOf (v : Value) : Except EvalError String :=
  match v with
  | .string text => .ok text
  | v => .error (f.invalid "a string" v)

/-- A component of a colour. -/
def componentOf (v : Value) : Except EvalError Int64 := do
  let n ← f.integerOf v
  if 0 ≤ n ∧ n ≤ 255 then return n else throw (f.invalid "a component in 0..=255" v)

/-! ### Results -/

/-- The number of radians in a half turn. -/
def pi : Float := 3.141592653589793

def onDecimal (op : Float → Float) (v : Value) : Except EvalError Value :=
  (fun x => .decimal (op x)) <$> f.decimalOf v

/-- Rounds to an integer; values out of range go to the nearest end, and a NaN to zero. -/
def rounded (op : Float → Float) (v : Value) : Except EvalError Value :=
  match v with
  | .integer n => .ok (.integer n)
  | v => (fun x => .integer (op x).toInt64) <$> f.decimalOf v

/-- The first value if `keep` holds of the two, else the second. -/
def pick (keep : Float → Float → Bool) (a b : Value) : Except EvalError Value := do
  let x ← f.decimalOf a
  let y ← f.decimalOf b
  return if keep x y then a else b

/-- Integers keep their kind when the exponent is a 32-bit number. -/
def power (a b : Value) : Except EvalError Value :=
  let general : Except EvalError Value := do
    let x ← decimalOf .pow a
    let y ← decimalOf .pow b
    return .decimal (x.pow y)
  match a, b with
  | .integer base, .integer exponent =>
    if 0 ≤ exponent.toInt ∧ exponent.toInt < 0x100000000 then
      .integer <$> Value.orOverflow "pow" (Integer.pow? base exponent.toInt.toNat)
    else general
  | _, _ => general

def magnitude : Value → Except EvalError Value
  | .integer n => .integer <$> Value.orOverflow "abs" (Integer.abs? n)
  | .decimal x => .ok (.decimal x.abs)
  | .percentage n => .ok (.percentage ((Integer.abs? n).getD Int64.maxValue))
  | v => .error (invalid .abs "a number" v)

def toInteger (v : Value) : Except EvalError Value :=
  match v with
  | .decimal x => .ok (.integer x.toInt64)
  | .reference r => .ok (.integer r.id)
  | .string text =>
    match Integer.read? (Text.trim text.toList) with
    | some n => .ok (.integer n)
    | none => .error (invalid .integer "a numeric string" v)
  | v => .integer <$> integerOf .integer v

def toReference (v : Value) : Except EvalError Value :=
  match v with
  | .reference r => .ok (.reference r)
  | v => (fun id => .reference { id }) <$> integerOf .reference v

/-- A colour as `0xAARRGGBB`. -/
def colour (red green blue : Value) (alpha : Int64) : Except EvalError Value := do
  let red ← f.componentOf red
  let green ← f.componentOf green
  let blue ← f.componentOf blue
  return .integer ((alpha <<< 24) ||| (red <<< 16) ||| (green <<< 8) ||| blue)

def apply (arguments : List Value) : Except EvalError Value :=
  match f, arguments with
  | hash, v :: _ => (fun text => .integer (Text.hashName text).toInt64) <$> f.textOf v
  | sin, v :: _ => f.onDecimal Float.sin v
  | cos, v :: _ => f.onDecimal Float.cos v
  | tan, v :: _ => f.onDecimal Float.tan v
  | sqrt, v :: _ => f.onDecimal Float.sqrt v
  | radians, v :: _ => f.onDecimal (· * (pi / 180)) v
  | degrees, v :: _ => f.onDecimal (· * (180 / pi)) v
  | pow, a :: b :: _ => power a b
  | abs, v :: _ => magnitude v
  | min, a :: b :: _ => f.pick (fun x y => x ≤ y) a b
  | max, a :: b :: _ => f.pick (fun x y => y ≤ x) a b
  | floor, v :: _ => f.rounded Float.floor v
  | ceil, v :: _ => f.rounded Float.ceil v
  | round, v :: _ => f.rounded Float.round v
  | integer, v :: _ => toInteger v
  | decimal, v :: _ => .decimal <$> f.decimalOf v
  | percentage, v :: _ => .percentage <$> f.integerOf v
  | string, v :: _ => .ok (.string v.display)
  | boolean, v :: _ => .ok (.boolean v.truthy)
  | reference, v :: _ => toReference v
  | length, v :: _ => (fun text => .integer (Int64.ofNat text.length)) <$> f.textOf v
  | upper, v :: _ => (fun text => .string (Text.upper text)) <$> f.textOf v
  | lower, v :: _ => (fun text => .string (Text.lower text)) <$> f.textOf v
  | rgb, red :: green :: blue :: _ => f.colour red green blue 255
  | rgba, red :: green :: blue :: alpha :: _ => do
    let alpha ← f.componentOf alpha
    f.colour red green blue alpha
  | f, arguments => .error (.argumentCount f.name f.parameters.length arguments.length)

end Builtin

end Rsrc

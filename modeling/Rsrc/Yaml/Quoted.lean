import Rsrc.Integer
import Rsrc.Yaml.Scanner

/-!
# Quoted scalars

A gap inside a quoted scalar is folded. The scalar must not hold a mark that divides documents.
-/

namespace Rsrc.Yaml.Scan

/-- The rest of a text between single quotes; a quote is written twice. -/
def singleQuoted : (fuel : Nat) → Scan (List Char)
  | 0 => failure
  | fuel + 1 => do
    if (← marker?).isSome then failure
    match (← get).rest with
    | [] => failure
    | '\x27' :: '\x27' :: _ =>
      pass 2
      return '\x27' :: (← singleQuoted fuel)
    | '\x27' :: _ =>
      pass 1
      return []
    | c :: _ =>
      if isSpace c then
        let gap ← span isSpace
        return foldedGap gap ++ (← singleQuoted fuel)
      else
        pass 1
        return c :: (← singleQuoted fuel)

/-- What stands behind a backslash: a character, or the number of digits of its code. -/
inductive Escape where
  | char (c : Char)
  | code (width : Nat)
  deriving DecidableEq, Repr

def escape? (c : Char) : Option Escape :=
  match c with
  | '0' => some (.char '\x00')
  | 'a' => some (.char '\x07')
  | 'b' => some (.char '\x08')
  | 't' | '\t' => some (.char '\t')
  | 'n' => some (.char '\n')
  | 'v' => some (.char '\x0b')
  | 'f' => some (.char '\x0c')
  | 'r' => some (.char '\r')
  | 'e' => some (.char '\x1b')
  | ' ' => some (.char ' ')
  | '\x22' => some (.char '\x22')
  | '/' => some (.char '/')
  | '\\' => some (.char '\\')
  | 'N' => some (.char '\u0085')
  | '_' => some (.char '\u00a0')
  | 'L' => some (.char '\u2028')
  | 'P' => some (.char '\u2029')
  | 'x' => some (.code 2)
  | 'u' => some (.code 4)
  | 'U' => some (.code 8)
  | _ => none

/-- The character behind a backslash. -/
def escape : Scan Char := do
  pass 1
  match escape? (← (← ahead 0)) with
  | none => failure
  | some (.char c) =>
    pass 1
    return c
  | some (.code width) =>
    pass 1
    let digits := (← get).rest.take width
    let n ← Integer.hexDigits? digits
    if digits.length < width || !n.isValidChar then failure
    pass width
    return Char.ofNat n

/-- The rest of a text between double quotes. A backslash starts an escape; at the end of a line it
joins the line with the next one. -/
def doubleQuoted : (fuel : Nat) → Scan (List Char)
  | 0 => failure
  | fuel + 1 => do
    if (← marker?).isSome then failure
    match (← get).rest with
    | [] => failure
    | '\x22' :: _ =>
      pass 1
      return []
    | '\\' :: next =>
      if next.head?.any isBreak then
        pass 1
        discard lineBreak
        let gap ← span isSpace
        return breaksOf gap ++ (← doubleQuoted fuel)
      else
        let c ← escape
        return c :: (← doubleQuoted fuel)
    | c :: _ =>
      if isSpace c then
        let gap ← span isSpace
        return foldedGap gap ++ (← doubleQuoted fuel)
      else
        pass 1
        return c :: (← doubleQuoted fuel)

/-- Scans a quoted scalar. -/
def quoted (body : (fuel : Nat) → Scan (List Char)) : Scan Unit := do
  saveKey
  allowKey false
  pass 1
  let text ← body ((← get).rest.length + 1)
  emit (.scalar false (String.ofList text))

end Rsrc.Yaml.Scan

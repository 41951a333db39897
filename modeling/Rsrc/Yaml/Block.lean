import Rsrc.Yaml.Scanner

/-!
# Block scalars

The lines of a block scalar stand behind a mark, at a column of their own. They are literal, or folded
like those of other scalars. The mark says what becomes of the line breaks at the end.
-/

namespace Rsrc.Yaml

inductive Chomping where
  | strip
  | clip
  | keep
  deriving DecidableEq, Repr

/-- The lines of a block scalar: the text, its last line break, and the empty lines behind it. -/
structure BlockText where
  text : List Char := []
  final : List Char := []
  empty : List Char := []

def BlockText.chomp (b : BlockText) : Chomping → List Char
  | .strip => b.text
  | .clip => b.text ++ b.final
  | .keep => b.text ++ b.final ++ b.empty

namespace Scan

def chomping : Scan (Option Chomping) := do
  match ← ahead 0 with
  | some '+' =>
    pass 1
    return some .keep
  | some '-' =>
    pass 1
    return some .strip
  | _ => return none

/-- The digit that says how far the lines are moved to the right. -/
def increment : Scan (Option Nat) := do
  match ← ahead 0 with
  | some c =>
    if c == '0' then failure
    else if c.isDigit then
      pass 1
      return some (c.toNat - '0'.toNat)
    else return none
  | none => return none

/-- The mark of a block scalar: chomping and increment, in any order. -/
def blockMark : Scan (Chomping × Option Nat) := do
  match ← chomping with
  | some c => return (c, ← increment)
  | none =>
    match ← increment with
    | none => return (.clip, none)
    | some n => return ((← chomping).getD .clip, some n)

/-- Goes over empty lines, and over the margin of the next one. The margin ends at a column, if that is
known. The line breaks are returned, and the furthest column. -/
def emptyLines (margin : Option Nat) : (fuel : Nat) → Scan (List Char × Nat)
  | 0 => failure
  | fuel + 1 => do
    let start ← column
    let blanks := ((← get).rest.takeWhile (· == ' ')).length
    pass (margin.elim blanks fun m => min blanks (m - start))
    let here ← column
    if (← ahead 0) == some '\t' && margin.all (here < ·) then failure
    match ← lineBreak with
    | [] => return ([], here)
    | c =>
      let (more, furthest) ← emptyLines margin fuel
      return (c ++ more, max here furthest)

/-- The lines at the column, behind the line break `final` and the empty lines `empty`. A folded line
break is a blank between lines that do not start with one. -/
def blockLines (literal : Bool) (margin : Nat) (afterBlank : Bool) (final empty : List Char) :
    (fuel : Nat) → Scan BlockText
  | 0 => failure
  | fuel + 1 => do
    let s ← get
    if s.place.column != margin || s.rest.isEmpty then return { final, empty }
    let blank := s.rest.head?.any isBlank
    let folds := !literal && final == ['\n'] && !afterBlank && !blank
    let joint := if !folds then final else if empty.isEmpty then [' '] else []
    let line ← span (!isBreak ·)
    let nextFinal ← lineBreak
    let (nextEmpty, _) ← emptyLines (some margin) (s.rest.length + 1)
    let more ← blockLines literal margin blank nextFinal nextEmpty fuel
    return { more with text := joint ++ empty ++ line ++ more.text }

/-- Scans a block scalar. -/
def block (literal : Bool) : Scan Unit := do
  dropKey
  allowKey true
  pass 1
  let (chomping, increment) ← blockMark
  lineRest
  let s ← get
  let fuel := s.rest.length + 1
  let given := increment.map fun n => s.indents.head?.getD 0 + n
  let (empty, furthest) ← emptyLines given fuel
  let margin := given.getD (max furthest (max s.least 1))
  let body ← blockLines literal margin false [] empty fuel
  emit (.scalar false (String.ofList (body.chomp chomping)))

end Scan

end Rsrc.Yaml

import Rsrc.Yaml.Scanner

/-!
# Plain scalars

A plain scalar has no marks around it. It ends at a comment, at the colon of a key, at a mark of the
flow collection around it, and where a line does not belong to the block collection around it.
-/

namespace Rsrc.Yaml.Scan

/-- The characters up to a gap or to what ends the scalar. In a flow collection, a colon may not stand
directly before a mark. -/
def plainSpan? (flow : Bool) : List Char → Option (List Char)
  | [] => some []
  | c :: rest =>
    let colon := c == ':'
    if isSpace c then some []
    else if flow && colon && rest.head?.any (fun d => d == '?' || isFlowMark d) then none
    else if (colon && isGap rest.head?) || (flow && isFlowMark c) then some []
    else (plainSpan? flow rest).map (c :: ·)

/-- A tab stands before the column `least` of a line that starts in the gap. -/
def hasEarlyTab (least : Nat) : (column : Option Nat) → List Char → Bool
  | _, [] => false
  | column, c :: rest =>
    if isBreak c then hasEarlyTab least (some 0) rest
    else (c == '\t' && column.any (· < least)) || hasEarlyTab least (column.map (· + 1)) rest

/-- Goes over the gap behind a part of a plain scalar. -/
def plainGap : Scan (List Char) := do
  let gap ← span isSpace
  if hasEarlyTab (← get).least none gap then failure
  return gap

/-- Ends a plain scalar before a gap. A key may start behind it, if that is in another line. -/
def plainEnd (gap : List Char) : Scan (List Char) := do
  if gap.any isBreak then allowKey true
  return []

/-- The text of a plain scalar from a place behind a gap. -/
def plainText (gap : List Char) : (fuel : Nat) → Scan (List Char)
  | 0 => failure
  | fuel + 1 => do
    let s ← get
    if (← marker?).isSome || s.rest.head? == some '#' then plainEnd gap
    else
      let part ← plainSpan? s.inFlow s.rest
      if part.isEmpty then plainEnd gap
      else
        pass part.length
        let next ← plainGap
        let ends := next.isEmpty || (!s.inFlow && (← column) < s.least)
        let more ← if ends then plainEnd next else plainText next fuel
        return foldedGap gap ++ part ++ more

/-- Scans a plain scalar. -/
def plain : Scan Unit := do
  saveKey
  allowKey false
  let text ← plainText [] ((← get).rest.length + 1)
  emit (.scalar true (String.ofList text))

/-- Whether a plain scalar can start with these characters. -/
def startsPlain (flow : Bool) (cs : List Char) : Bool :=
  match cs with
  | [] => false
  | c :: rest =>
    if c == '-' then !rest.head?.any isBlank
    else if c == '?' || c == ':' then !flow && !isGap rest.head?
    else !isSpace c && !isFlowMark c && !"#&*!|>\x27\x22%@`".toList.contains c

end Rsrc.Yaml.Scan

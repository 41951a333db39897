import Rsrc.Text.CaseTable

/-!
# Upper and lower case

Full Unicode case mapping: one character may become several. Upper-case sigma becomes the final
form at the end of a word, that is, after a cased letter and not before one, where characters that
do not take part in casing are passed over.
-/

namespace Rsrc.Text

/-- The code point has the property, if the numbers are counted from zero on. -/
def inRanges : (ranges : List Nat) → (code : Nat) → Bool
  | gap :: length :: ranges, code =>
    gap ≤ code && (code < gap + length || inRanges ranges (code - gap - length))
  | _, _ => false

/-- The image of `code` under the first run that covers it. -/
def mapRun? (code : Nat) : List (Nat × Nat × Nat × Int) → Option Nat
  | [] => none
  | (first, last, step, delta) :: runs =>
    if first ≤ code && code ≤ last && (code - first) % step == 0 then some (code + delta).toNat
    else mapRun? code runs

/-- The mappings to upper case that lower case undoes. -/
def pairRuns : List (Nat × Nat × Nat × Int) :=
  casePairs ++ singlePairs.map (fun (code, delta) => (code, code, 1, delta)) ++
    alternatingPairs.map fun (first, last) => (first, last, 2, -1)

def upperRuns : List (Nat × Nat × Nat × Int) := upperOnly ++ pairRuns

def lowerRuns : List (Nat × Nat × Nat × Int) :=
  lowerOnly ++ pairRuns.map fun (first, last, step, delta) =>
    ((first + delta).toNat, (last + delta).toNat, step, -delta)

def upperSequences : List (Nat × List Nat) :=
  upperExpansions ++ iotaRuns.flatMap fun (first, delta) =>
    (List.range' first 8).map fun code : Nat => (code, [(code + delta).toNat, 0x399])

/-- The image of one character under a table of expansions and a table of runs. -/
def mapCase (expansions : List (Nat × List Nat)) (runs : List (Nat × Nat × Nat × Int))
    (c : Char) : List Char :=
  match expansions.lookup c.toNat with
  | some codes => codes.map Char.ofNat
  | none => [(mapRun? c.toNat runs).elim c Char.ofNat]

def isCaseIgnorable (c : Char) : Bool := inRanges caseIgnorableRanges c.toNat

def isCased (c : Char) : Bool := inRanges casedRanges c.toNat

/-- The first character that takes part in casing is a cased letter. -/
def reachesCased (cs : List Char) : Bool :=
  ((cs.dropWhile isCaseIgnorable).head?).any isCased

/-- Lowers `cs`, where `before` are the characters before them, last first. -/
def lowerFrom (before : List Char) : List Char → List Char
  | [] => []
  | c :: cs =>
    let image :=
      if c = 'Σ' then
        if reachesCased before && !reachesCased cs then ['ς'] else ['σ']
      else mapCase lowerExpansions lowerRuns c
    image ++ lowerFrom (c :: before) cs

def lower (text : String) : String := String.ofList (lowerFrom [] text.toList)

def upper (text : String) : String :=
  String.ofList (text.toList.flatMap (mapCase upperSequences upperRuns))

end Rsrc.Text

import Rsrc.Yaml.Char

/-!
# Tokens of YAML texts

A YAML text is read in two steps: a scanner divides it into tokens, and nodes are made of the tokens.
The scanner knows the columns at which block collections have been opened, and tells where they start
and end by tokens of their own.

That something is a key is only known when its colon is found. So the scanner remembers where the
last thing that may be a key started, and puts the token of a key there afterwards.
-/

namespace Rsrc.Yaml

inductive Token where
  | version (major minor : Nat)
  /-- A handle for tags, and what it stands for. -/
  | handle (name front : String)
  | documentStart
  | documentEnd
  | streamEnd
  | listStart
  | mapStart
  /-- The end of a block collection. -/
  | blockEnd
  | flowListStart
  | flowListEnd
  | flowMapStart
  | flowMapEnd
  /-- The dash of an item in a block list. -/
  | item
  | comma
  | key
  | value
  | anchor (name : String)
  /-- A use of an anchor. -/
  | reference (name : String)
  | tag (handle suffix : String)
  | scalar (plain : Bool) (text : String)
  deriving DecidableEq, Repr, Inhabited

/-- A place in a text. -/
structure Place where
  index : Nat := 0
  line : Nat := 0
  column : Nat := 0

/-- The place behind characters that start here. -/
def Place.behind (p : Place) : List Char → Place
  | [] => p
  | '\r' :: '\n' :: rest => Place.behind ⟨p.index + 2, p.line + 1, 0⟩ rest
  | c :: rest =>
    if isBreak c then Place.behind ⟨p.index + 1, p.line + 1, 0⟩ rest
    else Place.behind ⟨p.index + 1, p.line, p.column + 1⟩ rest

/-- Where something starts that may be a key, if a colon follows. -/
structure KeyStart where
  place : Place
  /-- The number of tokens before it. -/
  number : Nat
  /-- Nothing else can stand there. -/
  required : Bool

/-- A key and its colon are in one line and not far from each other. -/
def KeyStart.isStale (k : KeyStart) (p : Place) : Bool :=
  k.place.line < p.line || k.place.index + 1024 < p.index

structure Scanner where
  rest : List Char
  place : Place := {}
  tokens : Array Token := #[]
  /-- The columns of the block collections around this place, the innermost first. -/
  indents : List Nat := []
  /-- A key may start here. -/
  keyAllowed : Bool := true
  /-- What may be a key in the innermost flow collection, or outside all of them. -/
  keyStart : Option KeyStart := none
  /-- What may be a key in the collections around that. -/
  outer : List (Option KeyStart) := []

namespace Scanner

/-- Inside of a flow collection. -/
def inFlow (s : Scanner) : Bool := !s.outer.isEmpty

/-- The first column that lies inside of the innermost block collection. -/
def least (s : Scanner) : Nat := s.indents.head?.elim 0 (· + 1)

end Scanner

abbrev Scan := StateT Scanner Option

namespace Scan

/-- The character that stands `n` characters further on. -/
def ahead (n : Nat) : Scan (Option Char) := return ((← get).rest.drop n).head?

def column : Scan Nat := return (← get).place.column

/-- Goes over characters. -/
def pass (n : Nat) : Scan Unit :=
  modify fun s => { s with rest := s.rest.drop n, place := s.place.behind (s.rest.take n) }

/-- Goes over the characters that satisfy a test. -/
def span (test : Char → Bool) : Scan (List Char) := do
  let cs := (← get).rest.takeWhile test
  pass cs.length
  return cs

/-- Goes over a line break, if there is one. -/
def lineBreak : Scan (List Char) := do
  match (← get).rest with
  | '\r' :: '\n' :: _ =>
    pass 2
    return ['\n']
  | c :: _ =>
    if isBreak c then
      pass 1
      return breaksOf [c]
    else return []
  | [] => return []

/-- Goes over a comment, if there is one. -/
def comment : Scan Unit := do
  if (← ahead 0) == some '#' then discard (span (!isBreak ·))

/-- Goes over the rest of a line that holds at most a comment. -/
def lineRest : Scan Unit := do
  discard (span isBlank)
  comment
  if (← ahead 0).all isBreak then discard lineBreak else failure

/-- A mark of three characters that divides documents. -/
def marker? : Scan (Option Token) := do
  match ← column, (← get).rest with
  | 0, '-' :: '-' :: '-' :: rest => return if isGap rest.head? then some .documentStart else none
  | 0, '.' :: '.' :: '.' :: rest => return if isGap rest.head? then some .documentEnd else none
  | _, _ => return none

/-! ### Tokens -/

def emit (t : Token) : Scan Unit := modify fun s => { s with tokens := s.tokens.push t }

/-- Puts a token behind the first `number` ones. -/
def insert (number : Nat) (t : Token) : Scan Unit :=
  modify fun s => { s with tokens := s.tokens.insertIdxIfInBounds number t }

def allowKey (allowed : Bool) : Scan Unit := modify fun s => { s with keyAllowed := allowed }

/-- Opens a block collection at a column, unless it is open already. -/
def openBlock (column number : Nat) (start : Token) : Scan Unit := do
  let s ← get
  if !s.inFlow && s.indents.head?.all (· < column) then
    modify fun s => { s with indents := column :: s.indents }
    insert number start

/-- Closes the block collections whose columns satisfy a test. -/
def closeBlocks (test : Nat → Bool) : Scan Unit := do
  let s ← get
  if !s.inFlow then
    let ends := Array.replicate (s.indents.takeWhile test).length Token.blockEnd
    set { s with indents := s.indents.dropWhile test, tokens := s.tokens ++ ends }

/-! ### Keys -/

/-- Gives up what may be a key. -/
def dropKey : Scan Unit := do
  if (← get).keyStart.any (·.required) then failure
  modify fun s => { s with keyStart := none }

/-- Remembers that a key may start here. -/
def saveKey : Scan Unit := do
  let s ← get
  if s.keyAllowed then
    dropKey
    let required := !s.inFlow && s.indents.head? == some s.place.column
    modify fun s =>
      { s with keyStart := some { place := s.place, number := s.tokens.size, required } }

/-- Gives up what is too far away to be a key. -/
def dropStaleKeys : Scan Unit := do
  let s ← get
  let stale (k : KeyStart) := k.isStale s.place
  if (s.keyStart :: s.outer).any (·.any fun k => stale k && k.required) then failure
  let fresh (k : Option KeyStart) := k.filter (!stale ·)
  set { s with keyStart := fresh s.keyStart, outer := s.outer.map fresh }

end Scan

end Rsrc.Yaml

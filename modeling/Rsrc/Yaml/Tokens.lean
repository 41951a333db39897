import Rsrc.Yaml.Block
import Rsrc.Yaml.Plain
import Rsrc.Yaml.Property
import Rsrc.Yaml.Quoted

/-!
# From texts to tokens
-/

namespace Rsrc.Yaml

namespace Scan

/-- Goes to the next token. Each line may start with a byte order mark, which takes up a column. Tabs
count as blanks only where no key may start. -/
def toToken : (fuel : Nat) → Scan Unit
  | 0 => failure
  | fuel + 1 => do
    let s ← get
    if s.place.column == 0 && s.rest.head? == some '\ufeff' then pass 1
    discard (span fun c => c == ' ' || (c == '\t' && (s.inFlow || !s.keyAllowed)))
    comment
    if !(← lineBreak).isEmpty then
      if !s.inFlow then allowKey true
      toToken fuel

/-- Scans a mark of one character. -/
def single (token : Token) : Scan Unit := do
  pass 1
  emit token

/-- The end of the text. -/
def streamEnd : Scan Unit := do
  closeBlocks fun _ => true
  dropKey
  emit .streamEnd

/-- A mark between documents. -/
def documentMark (token : Token) : Scan Unit := do
  closeBlocks fun _ => true
  dropKey
  allowKey false
  pass 3
  emit token

/-- The start of a flow collection, which may be a key. -/
def flowStart (token : Token) : Scan Unit := do
  saveKey
  modify fun s => { s with keyStart := none, outer := s.keyStart :: s.outer, keyAllowed := true }
  single token

def flowEnd (token : Token) : Scan Unit := do
  dropKey
  let s ← get
  if let before :: outer := s.outer then set { s with keyStart := before, outer }
  allowKey false
  single token

def comma : Scan Unit := do
  dropKey
  allowKey true
  single .comma

/-- A dash or a question mark opens the block collection to which it belongs, where a key may start. -/
def openHere (start : Token) : Scan Unit := do
  let s ← get
  if !s.inFlow then
    if !s.keyAllowed then failure
    openBlock s.place.column s.tokens.size start

def item : Scan Unit := do
  openHere .listStart
  dropKey
  allowKey true
  single .item

/-- The mark of a key that is more than a word. -/
def key : Scan Unit := do
  openHere .mapStart
  dropKey
  allowKey (!(← get).inFlow)
  single .key

/-- The colon behind a key. If what stands before may be a key, it is one now. -/
def value : Scan Unit := do
  match (← get).keyStart with
  | some k =>
    insert k.number .key
    openBlock k.place.column k.number .mapStart
    modify fun s => { s with keyStart := none, keyAllowed := false }
  | none =>
    openHere .mapStart
    allowKey (!(← get).inFlow)
  single .value

/-- Scans the token that starts here; `false` at the end of the text. -/
def token : Scan Bool := do
  let s ← get
  let atGap := isGap (s.rest.drop 1).head?
  match s.rest.head?, ← marker? with
  | none, _ =>
    streamEnd
    return false
  | _, some mark => documentMark mark
  | some '[', _ => flowStart .flowListStart
  | some '\x7b', _ => flowStart .flowMapStart
  | some ']', _ => flowEnd .flowListEnd
  | some '\x7d', _ => flowEnd .flowMapEnd
  | some ',', _ => comma
  | some '*', _ => anchor .reference
  | some '&', _ => anchor .anchor
  | some '!', _ => tag
  | some '\x27', _ => quoted singleQuoted
  | some '\x22', _ => quoted doubleQuoted
  | some c, _ =>
    if c == '%' && s.place.column == 0 then directive
    else if c == '-' && atGap then item
    else if c == '?' && (s.inFlow || atGap) then key
    else if c == ':' && (s.inFlow || atGap) then value
    else if (c == '|' || c == '>') && !s.inFlow then block (c == '|')
    else if startsPlain s.inFlow s.rest then plain
    else failure
  return true

/-- Scans all tokens. -/
def tokens : (fuel : Nat) → Scan Unit
  | 0 => failure
  | fuel + 1 => do
    toToken ((← get).rest.length + 1)
    dropStaleKeys
    let here ← column
    closeBlocks (here < ·)
    if ← token then tokens fuel

end Scan

/-- The tokens of a text. -/
def tokens? (s : String) : Option (List Token) := do
  let cs := s.toList
  if !cs.all isAllowed then none
  let (_, scanner) ← Scan.tokens (cs.length + 1) { rest := cs }
  return scanner.tokens.toList

end Rsrc.Yaml

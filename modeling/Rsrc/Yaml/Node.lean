import Rsrc.Yaml.Tokens

/-!
# From tokens to nodes

A text holds one document. Its scalars are kept as they stand: what a plain `~` or `12` means is for
the reader of the document to say.
-/

namespace Rsrc.Yaml

inductive Node where
  | scalar (plain : Bool) (tag : Option String) (text : String)
  | list (items : List Node)
  | map (entries : List (Node × Node))
  deriving Inhabited

namespace Node

/-- What stands where nothing is written. -/
def empty : Node := .scalar true none ""

structure Reader where
  tokens : List Token
  /-- The named nodes, the last one first. A node that is still open is not known yet. -/
  anchors : List (String × Option Node) := []
  /-- The handles of tags and what they stand for. -/
  handles : List (String × String) := []

abbrev Reading := StateT Reader Option

namespace Reading

def peek : Reading Token := return (← get).tokens.head?.getD .streamEnd

def advance : Reading Unit := modify fun s => { s with tokens := s.tokens.drop 1 }

/-- Whether the next token is one of these. -/
def at? (tokens : List Token) : Reading Bool := return tokens.contains (← peek)

/-- Goes over a token that has to come next. -/
def skip (t : Token) : Reading Unit := do
  if (← peek) == t then advance else failure

/-! ### Properties of nodes -/

/-- The full text of a tag. -/
def fullTag (handle suffix : String) : Reading String := do
  if handle.isEmpty then return suffix
  return (← (← get).handles.lookup handle) ++ suffix

def anchor? : Reading (Option String) := do
  match ← peek with
  | .anchor name =>
    advance
    return some name
  | _ => return none

def tag? : Reading (Option String) := do
  match ← peek with
  | .tag handle suffix =>
    advance
    return some (← fullTag handle suffix)
  | _ => return none

/-- The anchor and the tag of a node, in any order. -/
def properties : Reading (Option String × Option String) := do
  match ← anchor? with
  | some name => return (some name, ← tag?)
  | none =>
    let tag ← tag?
    return (← anchor?, tag)

/-- Names a node that starts here. -/
def openAnchor (name : String) : Reading Unit :=
  modify fun s => { s with anchors := (name, none) :: s.anchors }

/-- Fills in the node of the last anchor that is still open. -/
def fillAnchor (node : Node) : List (String × Option Node) → List (String × Option Node)
  | [] => []
  | (name, none) :: rest => (name, some node) :: rest
  | named :: rest => named :: fillAnchor node rest

def closeAnchor (node : Node) : Reading Unit :=
  modify fun s => { s with anchors := fillAnchor node s.anchors }

/-! ### Nodes -/

mutual

/-- A node. In a flow collection there are no block collections. As the value of a key, a list may start
at the column of the key, and then it has no start of its own. -/
def node (block indentless : Bool) : (fuel : Nat) → Reading Node
  | 0 => failure
  | fuel + 1 => do
    if let .reference name := ← peek then
      advance
      return ← (← (← get).anchors.lookup name)
    let (anchor, tag) ← properties
    if let some name := anchor then openAnchor name
    let result ← content block indentless (anchor.isSome || tag.isSome) tag fuel
    if anchor.isSome then closeAnchor result
    return result

/-- What stands behind the properties of a node, if it has some. -/
def content (block indentless marked : Bool) (tag : Option String) : (fuel : Nat) → Reading Node
  | 0 => failure
  | fuel + 1 => do
    match ← peek, block with
    | .scalar plain text, _ =>
      advance
      return .scalar plain tag text
    | .flowListStart, _ =>
      advance
      return .list (← flowItems true fuel)
    | .flowMapStart, _ =>
      advance
      return .map (← flowEntries true fuel)
    | .listStart, true =>
      advance
      return .list (← blockItems fuel)
    | .mapStart, true =>
      advance
      return .map (← blockEntries fuel)
    | t, _ =>
      if t == .item && indentless then return .list (← indentlessItems fuel)
      else if marked then return .scalar true tag ""
      else failure

/-- A node, or nothing before one of the given tokens. -/
def nodeUnless (ends : List Token) (block indentless : Bool) : (fuel : Nat) → Reading Node
  | 0 => failure
  | fuel + 1 => do
    if ← at? ends then return empty else node block indentless fuel

/-- The items of a block list. -/
def blockItems : (fuel : Nat) → Reading (List Node)
  | 0 => failure
  | fuel + 1 => do
    if (← peek) == .blockEnd then
      advance
      return []
    skip .item
    let item ← nodeUnless [.item, .blockEnd] true false fuel
    return item :: (← blockItems fuel)

/-- The items of a list that ends where no further dash follows. -/
def indentlessItems : (fuel : Nat) → Reading (List Node)
  | 0 => failure
  | fuel + 1 => do
    if (← peek) != .item then return []
    advance
    let item ← nodeUnless [.item, .key, .value, .blockEnd] true false fuel
    return item :: (← indentlessItems fuel)

/-- The entries of a block map. -/
def blockEntries : (fuel : Nat) → Reading (List (Node × Node))
  | 0 => failure
  | fuel + 1 => do
    if (← peek) == .blockEnd then
      advance
      return []
    skip .key
    let key ← nodeUnless [.key, .value, .blockEnd] true true fuel
    let value ← valueUnless [.key, .value, .blockEnd] true fuel
    return (key, value) :: (← blockEntries fuel)

/-- The value of a key, or nothing if there is no colon. -/
def valueUnless (ends : List Token) (block : Bool) : (fuel : Nat) → Reading Node
  | 0 => failure
  | fuel + 1 => do
    if (← peek) != .value then return empty
    advance
    nodeUnless ends block block fuel

/-- The items of a flow list. An item may be a map of one entry. -/
def flowItems (first : Bool) : (fuel : Nat) → Reading (List Node)
  | 0 => failure
  | fuel + 1 => do
    if !first && (← peek) != .flowListEnd then skip .comma
    match ← peek with
    | .flowListEnd =>
      advance
      return []
    | .key =>
      advance
      let key ← nodeUnless [.value, .comma, .flowListEnd] false false fuel
      let value ← valueUnless [.comma, .flowListEnd] false fuel
      return .map [(key, value)] :: (← flowItems false fuel)
    | _ =>
      let item ← node false false fuel
      return item :: (← flowItems false fuel)

/-- The entries of a flow map. A key may stand without a value. -/
def flowEntries (first : Bool) : (fuel : Nat) → Reading (List (Node × Node))
  | 0 => failure
  | fuel + 1 => do
    if !first && (← peek) != .flowMapEnd then skip .comma
    match ← peek with
    | .flowMapEnd =>
      advance
      return []
    | .key =>
      advance
      let key ← nodeUnless [.value, .comma, .flowMapEnd] false false fuel
      let value ← valueUnless [.comma, .flowMapEnd] false fuel
      return (key, value) :: (← flowEntries false fuel)
    | _ =>
      let key ← node false false fuel
      return (key, empty) :: (← flowEntries false fuel)

end

/-! ### Documents -/

/-- The directives before a document. The version is given at most once, and each handle too. -/
def directives (versioned : Bool) : (fuel : Nat) → Reading Unit
  | 0 => failure
  | fuel + 1 => do
    match ← peek with
    | .version major minor =>
      if versioned || major != 1 || !(minor == 1 || minor == 2) then failure
      advance
      directives true fuel
    | .handle name front =>
      if ((← get).handles.lookup name).isSome then failure
      advance
      modify fun s => { s with handles := (name, front) :: s.handles }
      directives versioned fuel
    | _ => return ()

/-- Handles that need no declaration. -/
def standardHandles : List (String × String) := [("!", "!"), ("!!", "tag:yaml.org,2002:")]

/-- The start of a document: whether there is one, and whether it has a mark. -/
def documentStart (fuel : Nat) : Reading Bool := do
  let marked ← match ← peek with
    | .version _ _ | .handle _ _ | .documentStart =>
      directives false fuel
      skip .documentStart
      pure true
    | _ => pure false
  modify fun s => { s with handles := s.handles ++ standardHandles }
  return marked

/-- Goes over marks that end a document. -/
def documentEnds : (fuel : Nat) → Reading Unit
  | 0 => failure
  | fuel + 1 => do
    if (← peek) == .documentEnd then
      advance
      documentEnds fuel

/-- Whether the content of a document with a mark is left out. -/
def atDocumentEnd : Reading Bool := do
  match ← peek with
  | .version _ _ | .handle _ _ | .documentStart | .documentEnd | .streamEnd => return true
  | _ => return false

/-- The only document of a text. -/
def document (fuel : Nat) : Reading Node := do
  if (← peek) == .streamEnd then return empty
  let marked ← documentStart fuel
  let result ← if marked && (← atDocumentEnd) then pure empty else node true false fuel
  documentEnds fuel
  skip .streamEnd
  return result

end Reading

/-- The document that a text holds. -/
def ofText? (s : String) : Option Node := do
  let tokens ← tokens? s
  (Reading.document (4 * tokens.length + 4) { tokens }).map (·.1)

end Node

end Rsrc.Yaml

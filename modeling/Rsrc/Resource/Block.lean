import Rsrc.Resource.Assign

/-!
# Resource blocks

A block makes a new resource, overrides one, or copies one. Its arguments give the id and the name,
or are those of a constructor; `BlockKind.plan` settles what they amount to before the block's body
is read.
-/

namespace Rsrc

inductive BlockKind where
  | new
  | override
  | duplicate
  deriving DecidableEq, Repr

def BlockKind.ofKeyword? : String → Option BlockKind
  | "new" => some new
  | "override" => some override
  | "duplicate" => some duplicate
  | _ => none

/-- An evaluated argument and its first lexeme. -/
structure Argument where
  value : Value
  origin : Lexeme

/-- A reference among the arguments. -/
structure GivenReference where
  reference : Reference
  origin : Lexeme

def Argument.reference? (a : Argument) : Option GivenReference :=
  match a.value with
  | .reference r => some ⟨r, a.origin⟩
  | _ => none

/-- The id, with its origin, and the name that are given without a reference. -/
structure Naming where
  id : Option (Int64 × Lexeme) := none
  name : Option String := none

/-- Arguments that are an optional id and an optional name. -/
def Naming.ofArguments? : List Argument → Option Naming
  | [] => some {}
  | [⟨.integer id, origin⟩] => some { id := some (id, origin) }
  | [⟨.string name, _⟩] => some { name := some name }
  | [⟨.integer id, origin⟩, ⟨.string name, _⟩] => some { id := some (id, origin), name := some name }
  | _ => none

/-- Where a block for the type stores its resource: in the reference's container or else that of the
declaration, under the reference's id or else the next free one. -/
def Session.slot (s : Session) (d : TypeDef) (container : Option String)
    (reference : Option Reference) : Except IdFault Reference := do
  if let some r := reference then
    if r.isAny then throw .anyId
    if let some typeName := r.typeName then
      if typeName ≠ d.name then throw (.otherType r.display typeName d.name)
  let container := (reference.bind (·.container)) <|> container
  let id := match reference with
    | some r => if r.isAuto then s.nextId d.name container else r.id
    | none => s.nextId d.name container
  return { id, typeName := some d.name, typeCode := some d.code, container }

/-- The slot for a reference that is given at a lexeme. -/
def slotAt (d : TypeDef) (container : Option String) (reference : Option Reference)
    (origin : Lexeme) : Update Reference := do
  match (← get).slot d container reference with
  | .ok slot => return slot
  | .error fault => .reject origin (.invalidId fault)

/-- What the head of a block amounts to. -/
structure BlockPlan where
  reference : Reference
  name : String
  /-- The values that the block starts with; a fresh resource has none. -/
  start : Option Record := none
  /-- The arguments of the constructor that is to run. -/
  constructor : Option (List Value) := none

namespace BlockKind

/-- The resource to copy, for a block that copies one, and the references behind it. -/
def source (kind : BlockKind) (d : TypeDef) (container : Option String) (keyword : Lexeme)
    (references : List GivenReference) :
    Update (Option GivenReference × List GivenReference) := do
  match kind, references with
  | .duplicate, [] => .reject keyword (.invalidId .nothingToCopy)
  | .duplicate, ⟨r, origin⟩ :: rest =>
    let slot ← slotAt d container (some r) origin
    return (some ⟨slot, origin⟩, rest)
  | _, references => return (none, references)

/-- The one reference that is left, if any. -/
def target (references : List GivenReference) : Update (Option GivenReference) :=
  match references with
  | [] => return none
  | [r] => return some r
  | _ :: extra :: _ => .reject extra.origin (.invalidId .severalIds)

/-- The reference for the slot, by itself or from a plain id. -/
def explicit (target : Option GivenReference) (naming : Naming) : Update (Option GivenReference) :=
  match target, naming.id with
  | some _, some (_, origin) => .reject origin (.invalidId .givenTwice)
  | some r, none => return some r
  | none, some (id, origin) => return some ⟨{ id }, origin⟩
  | none, none => return none

/-- The name and the values that a block starts with in its slot. -/
def start (kind : BlockKind) (keyword : Lexeme) (source : Option GivenReference)
    (slot : Reference) (name : Option String) : Update (String × Option Record) := do
  let existing := (← get).resource? slot
  let occupied : Update (String × Option Record) :=
    .reject keyword (.duplicateResource slot.display)
  match kind, source, existing with
  | .new, _, some _ => occupied
  | .new, _, none | .override, _, none => return (name.getD "", none)
  | .override, _, some r => return (name.getD r.name, some r.values)
  | .duplicate, none, _ => .reject keyword (.invalidId .nothingToCopy)
  | .duplicate, some source, existing =>
    match (← get).resource? source.reference, existing with
    | none, _ => .reject source.origin (.unknownResource source.reference.display)
    | some _, some _ => occupied
    | some copied, none => return (name.getD copied.name, some copied.values)

/-- Settles what the arguments of a block amount to. -/
def plan (kind : BlockKind) (d : TypeDef) (container : Option String) (keyword : Lexeme)
    (arguments : List Argument) : Update BlockPlan := do
  let given := arguments.filterMap (·.reference?)
  let rest := arguments.filter (·.reference?.isNone)
  let (source, references) ← kind.source d container keyword given
  let target ← target references
  let constructed := (d.constructor? rest.length).isSome
  let naming ← match if constructed then some {} else Naming.ofArguments? rest with
    | some naming => pure naming
    | none =>
      .reject keyword (.constructorArity d.name rest.length (d.constructors.map (·.arity)))
  let explicit ← explicit target naming
  let slot ← slotAt d container (explicit.map (·.reference)) ((explicit.map (·.origin)).getD keyword)
  let (name, start) ← kind.start keyword source slot naming.name
  return {
    reference := slot
    name
    start
    constructor := if constructed then some (rest.map (·.value)) else none }

end BlockKind

/-- Opens the scope of a block, in which the id and the name are bound. -/
def BlockPlan.openScope (plan : BlockPlan) : Update ScopeId := do
  let scope := (← get).scopes.next
  Update.modifyScopes fun s =>
    ((s.push .shadow Scopes.rootId).define scope "id" (.integer plan.reference.id)).define
      scope "name" (.string plan.name)
  return scope

/-- The values of a block before its body. -/
def BlockPlan.initial (plan : BlockPlan) (d : TypeDef) (scope : ScopeId) (keyword : Lexeme) :
    Update Record := do
  let r ← match plan.start with
    | some r => pure (d.refresh (← get).scopes scope r)
    | none => d.defaults scope {} ""
  match plan.constructor with
  | some arguments => d.runConstructor scope keyword r arguments
  | none => return r

/-- Gives references to known types the code of their type. -/
def Session.withCodes (s : Session) (r : Record) : Record :=
  r.mapValues fun value =>
    match value with
    | .reference reference =>
      match reference.typeCode, reference.typeName.bind s.typeNamed? with
      | none, some d => .reference { reference with typeCode := some d.code }
      | _, _ => value
    | _ => value

/-- Stores the resource of a block with the values that its body has left, and closes the block's
scope. -/
def BlockPlan.finish (plan : BlockPlan) (d : TypeDef) (scope : ScopeId) (keyword : Lexeme)
    (r : Record) : Update Unit := do
  let r ← d.pad scope r
  modify fun s =>
    let resource : Resource :=
      { reference := plan.reference
        name := plan.name
        definition := d
        values := s.withCodes r
        origin := some keyword }
    { s with scopes := s.scopes.release scope }.store resource

end Rsrc

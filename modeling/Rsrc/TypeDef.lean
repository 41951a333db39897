import Rsrc.Decorator
import Rsrc.Field
import Rsrc.Scopes
import Rsrc.Template

/-!
# Type definitions

A type has a template, fields that claim its labels, and constructors told apart by their number of
parameters. The operations here check each part against those that are there already.
-/

namespace Rsrc

/-- A script that fills a resource from arguments, by binding names behind `this.`. -/
structure Constructor where
  routine : Routine
  origin : Lexeme

namespace Constructor

/-- What stands before the names that a constructor fills. -/
def self : String := "this."

def make (typeName : String) (parameters : List String) (body : List Statement)
    (origin : Lexeme) : Constructor :=
  { routine := { name := typeName, parameters, body := .script body, watches := [.front self] }
    origin }

def arity (c : Constructor) : Nat := c.routine.arity

end Constructor

structure TypeDef where
  name : String
  code : String
  template : Template TypeDef := {}
  fields : List Field := []
  constructors : List Constructor := []
  decorators : Decorators := {}
  origin : Option Lexeme := none

/-- A type that is nested, directly or not, in another one. -/
def TypeDef.Below (d : TypeDef) : Type := { t : TypeDef // sizeOf t < sizeOf d }

theorem TypeDef.sizeOf_nested {d t : TypeDef}
    (h : ∃ e ∈ d.template.entries, e.nested = some t) : sizeOf t < sizeOf d := by
  obtain ⟨e, member, nested⟩ := h
  have inList := List.sizeOf_lt_of_mem member
  obtain ⟨name, code, template, fields, constructors, decorators, origin⟩ := d
  obtain ⟨entries, order, groups⟩ := template
  obtain ⟨label, tag, inner, size⟩ := e
  simp at nested inList ⊢
  subst nested
  simp at inList
  omega

namespace TypeDef

variable (d : TypeDef)

/-- The template, whose nested types are known to be smaller. -/
def layout : Template d.Below :=
  d.template.mapNested fun t h => ⟨t, sizeOf_nested h⟩

/-- The type can be declared as a resource, and not only be nested. -/
def isDeclarable : Bool := !d.decorators.has "no_declaration"

def isBuiltin : Bool := d.decorators.has "builtin"

/-- The bytes that a value takes when texts and lists are empty. -/
def minimumSize : Nat := d.template.minimumSize

def constructor? (arity : Nat) : Option Constructor :=
  d.constructors.find? (·.arity == arity)

def field? (name : String) : Option Field := d.fields.find? (·.name == name)

/-- The field that claims a label. -/
def fieldOfLabel? (label : String) : Option Field :=
  d.fields.find? (·.labels.contains label)

/-- The type behind a label. -/
def nested? (label : String) : Option TypeDef :=
  (d.template.entry? label).bind (·.nested)

/-- The type behind a label, which is smaller. -/
def below? (label : String) : Option d.Below :=
  (d.layout.entry? label).bind (·.nested)

/-! ### Building a definition -/

/-- Gives the type its template, once. -/
def setTemplate (t : Template TypeDef) : Except DefinitionError TypeDef := do
  if !d.template.isEmpty then throw .duplicateTemplate
  return { d with template := ← t.validate }

def addConstructor (c : Constructor) : Except DefinitionError TypeDef := do
  if (d.constructor? c.arity).isSome then throw (.duplicateConstructor c.arity)
  return { d with constructors := d.constructors ++ [c] }

/-- Checks that a value of a field may claim its label, and settles its descriptor. -/
def checkValue (fieldName : String) (v : FieldValue) : Except DefinitionError FieldValue := do
  let some entry := d.template.entry? v.name | throw (.unknownLabel v.name)
  if entry.tag.isListMarker then throw (.listMarkerValue v.name)
  if let some owner := d.fieldOfLabel? v.name then throw (.labelClaimed v.name owner.name)
  match v.descriptor with
  | none => return { v with descriptor := some (.ofTag entry.tag) }
  | some descriptor =>
    if descriptor.accepts entry.tag then return v
    throw (.incompatibleType (fieldName ++ "." ++ v.name) descriptor.display entry.tag.code)

/-- Checks a value and what is joined to it. -/
def checkParts (fieldName : String) (v : FieldValue) : Except DefinitionError FieldValue := do
  let checked ← d.checkValue fieldName v
  let joined ← v.joined.mapM (d.checkValue fieldName)
  return { checked with joined }

/-- The label is repeated by the group. -/
def isInGroup (g : ListGroup) (label : String) : Bool :=
  (d.template.indexOf? label).any g.contains

/-- The label is repeated by some group. -/
def isInList (label : String) : Bool :=
  (d.template.indexOf? label).any fun index => (d.template.groupContaining? index).isSome

/-- Checks a repeatable field against the list that its count opens. -/
def checkRepetition (f : Field) (r : Repetition) : Except DefinitionError Unit := do
  let some group := d.template.groupCountedBy? r.count | throw (.missingCount f.name r.count)
  if r.lower < 0 || r.upper < r.lower then throw (.invalidBounds f.name r.lower r.upper)
  if let some other := d.fields.find? (·.repetition.any (·.count == r.count)) then
    throw (.labelClaimed r.count other.name)
  if let some label := f.labels.find? (!d.isInGroup group ·) then
    throw (.valueOutsideList f.name label)

/-- Checks where the labels of a field lie. -/
def checkPlacement (f : Field) : Except DefinitionError Unit := do
  match f.repetition with
  | some r => d.checkRepetition f r
  | none =>
    if let some label := f.labels.find? (d.isInList ·) then throw (.valueInsideList f.name label)

/-- Adds a field that fits the template and the fields so far. -/
def addField (f : Field) : Except DefinitionError TypeDef := do
  if d.template.isEmpty then throw .missingTemplate
  if (d.field? f.name).isSome then throw (.duplicateField f.name)
  let f := { f with values := ← f.values.mapM (d.checkParts f.name) }
  d.checkPlacement f
  return { d with fields := d.fields ++ [f] }

/-- The labels outside lists that hold a value and that no field claims. -/
def unclaimedLabels : List String :=
  (d.template.entries.filter fun e =>
    !e.tag.isListMarker && !d.isInList e.label && (d.fieldOfLabel? e.label).isNone).map (·.label)

/-- Gives every unclaimed label a field of its own. -/
def addImplicitFields (origin : Lexeme) : Except DefinitionError TypeDef :=
  d.unclaimedLabels.foldlM (fun d label => d.addField (Field.synthesize label origin)) d

/-! ### Paths -/

/-- Where a path lands: a field, or one of its values, and what of the path goes on into the type
nested there. -/
structure Target where
  field : Field
  value : Option FieldValue := none
  inner : List String := []

/-- The field that a name stands for, by itself or by one of its labels. -/
def target? (name : String) : Option Target :=
  match d.field? name with
  | some field => some { field }
  | none => (d.fieldOfLabel? name).map fun field => { field, value := field.part? name }

/-- The value in which a longer path goes on. -/
def Target.container? (t : Target) : Option FieldValue :=
  match t.value, t.field.values with
  | some v, _ => some v
  | none, [v] => some v
  | none, _ => none

/-- Where a path of a first segment and further ones lands. A segment behind a field names one of
its values, if it can, and the segments behind that must make a path of the nested type. -/
def resolve? (d : TypeDef) (first : String) : List String → Option Target
  | [] => d.target? first
  | name :: tail => do
    let target ← d.target? first
    match target.value, target.field.part? name with
    | none, some v =>
      match tail with
      | [] => return { field := target.field, value := some v }
      | next :: more =>
        let nested ← d.nested? v.name
        let _ ← nested.resolve? next more
        return { field := target.field, value := some v, inner := next :: more }
    | _, _ =>
      let v ← target.container?
      let nested ← d.nested? v.name
      let _ ← nested.resolve? name tail
      return { field := target.field, value := some v, inner := name :: tail }

/-- Where the segments of a path land. -/
def targetOf? (d : TypeDef) : List String → Option Target
  | [] => none
  | first :: rest => d.resolve? first rest

theorem inner_of_target? {d : TypeDef} {name : String} {t : Target} (h : d.target? name = some t) :
    t.inner = [] := by
  simp only [target?] at h
  split at h
  · cases h; rfl
  · obtain ⟨field, _, rfl⟩ := Option.map_eq_some_iff.1 h
    rfl

theorem length_inner_le {d : TypeDef} {first : String} {rest : List String} {t : Target}
    (h : d.resolve? first rest = some t) : t.inner.length ≤ rest.length := by
  cases rest with
  | nil => simp [inner_of_target? h]
  | cons name tail =>
    simp only [resolve?, Option.bind_eq_bind, Option.bind_eq_some_iff, Option.pure_def] at h
    obtain ⟨target, _, h⟩ := h
    split at h
    · cases tail with
      | nil => simp only [Option.some.injEq] at h; subst h; simp
      | cons next more =>
        simp only [Option.bind_eq_some_iff, Option.some.injEq] at h
        obtain ⟨_, _, _, _, rfl⟩ := h
        simp
    · simp only [Option.bind_eq_some_iff, Option.some.injEq] at h
      obtain ⟨_, _, _, _, _, _, rfl⟩ := h
      simp

/-- What goes on into a nested type is shorter than the path. -/
theorem length_inner_lt {d : TypeDef} {path : List String} {t : Target}
    (h : d.targetOf? path = some t) : t.inner.length < path.length := by
  cases path with
  | nil => simp [targetOf?] at h
  | cons first rest => exact Nat.lt_succ_of_le (length_inner_le h)

/-- Where a path with points between its segments lands. -/
def fieldNamed (path : String) : Except DefinitionError Target :=
  match d.targetOf? (path.splitOn ".") with
  | some target => .ok target
  | none => .error (.unknownField path)

end TypeDef

end Rsrc

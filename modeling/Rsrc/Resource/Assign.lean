import Rsrc.Resource.Default

/-!
# Assignments

An assignment names a field, one value of a field, or a path into a nested type. Assigning to all of
a repeatable field appends an element to its list; assigning to one value changes the last element.
-/

namespace Rsrc

/-- The operand of an assignment that takes a single one. -/
def singleOperand (path : String) (operands : List Operand) (origin : Lexeme) : Update Operand :=
  match operands with
  | [operand] => return operand
  | [] => .reject origin (.valueCount path 1 0)
  | _ :: extra :: _ => .reject extra.origin (.valueCount path 1 operands.length)

namespace TypeDef

variable (d : TypeDef)

/-- Assigns operands to values in order. -/
def assignValues (scope : ScopeId) (front : String) (r : Record) (values : List FieldValue)
    (operands : List Operand) : Update Record :=
  (values.zip operands).foldlM (fun r (v, operand) => d.assignValue scope v front r operand) r

/-- Assigns operands to all values of a field. -/
def assignField (scope : ScopeId) (front : String) (r : Record) (field : Field)
    (operands : List Operand) : Update Record := do
  if let some extra := operands[field.values.length]? then
    .reject extra.origin (.valueCount field.name field.values.length operands.length)
  if field.isRepeatable then
    let entry ← d.defaultEntry scope field
    let entry ← d.assignValues scope "" entry field.values operands
    return r.pushEntry (front ++ field.name) entry
  else d.assignValues scope front r field.values operands

/-- Changes the last element of the list of a field, a fresh one if there is none. -/
def updateLast (scope : ScopeId) (field : Field) (key : String) (r : Record)
    (update : Record → Update Record) : Update Record := do
  let r ← d.ensureEntry scope field key r
  match r.lastEntry? key with
  | none => return r
  | some entry =>
    let entry ← update entry
    return r.modifyLast key fun _ => entry

/-- Assigns an operand to one value of a field. -/
def assignPart (scope : ScopeId) (front : String) (r : Record) (field : Field) (v : FieldValue)
    (operand : Operand) : Update Record :=
  if field.isRepeatable then
    d.updateLast scope field (front ++ field.name) r fun entry => d.assignValue scope v "" entry operand
  else d.assignValue scope v front r operand

/-- A field that is no longer to be used tells so. -/
def warnDeprecated (field : Field) (origin : Lexeme) : Update Unit := do
  if let some reason := field.deprecated then
    .note .warn s!"{origin.location}: field {quoted field.name} is deprecated. {reason}"

/-- Assigns operands to what a path stands for. Values get keys that start with `front`. -/
def assign (scope : ScopeId) (origin : Lexeme) (operands : List Operand) (d : TypeDef) (r : Record)
    (front : String) (path : List String) : Update Record :=
  let text := ".".intercalate path
  match h : d.targetOf? path with
  | none => .reject origin (.definition (.unknownField text))
  | some target => do
    warnDeprecated target.field origin
    if target.inner.isEmpty then
      match target.value with
      | some v =>
        let operand ← singleOperand text operands origin
        d.assignPart scope front r target.field v operand
      | none => d.assignField scope front r target.field operands
    else
      let some v := target.container? | .reject origin (.definition (.unknownField text))
      let some nested := d.nested? v.name | .reject origin (.definition (.unknownField text))
      have : target.inner.length < path.length := length_inner_lt h
      if target.field.isRepeatable then
        d.updateLast scope target.field (front ++ target.field.name) r fun entry =>
          nested.assign scope origin operands entry (v.name ++ ".") target.inner
      else nested.assign scope origin operands r (front ++ v.name ++ ".") target.inner
termination_by path.length

/-- Runs the constructor for the arguments, if there is one, and assigns what it has bound. -/
def runConstructor (scope : ScopeId) (origin : Lexeme) (r : Record) (arguments : List Value) :
    Update Record := do
  match d.constructor? arguments.length with
  | none => return r
  | some c =>
    let _ ← Update.evaluate origin (c.routine.execute Scopes.call scope arguments)
    let written := (← get).scopes.localsBehind scope Constructor.self
    Update.modifyScopes (·.dropLocals scope Constructor.self)
    written.foldlM
      (fun r (path, value) =>
        d.assign scope origin [⟨.literal value, origin⟩] r "" (path.splitOn ".")) r

end TypeDef

end Rsrc

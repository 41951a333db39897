import Rsrc.Resource.Value

/-!
# Default values

What a fresh resource or a fresh element of a list starts with.
-/

namespace Rsrc.TypeDef

variable (d : TypeDef)

/-- Stores what a label starts with: its constant, its default, the variable of its name if that
counts, or else what the type nested there starts with. -/
def defaultValue (nested : d.Below → Record → String → Update Record) (scope : ScopeId)
    (byName : Bool) (front : String) (r : Record) (v : FieldValue) : Update Record := do
  let key := front ++ v.name
  match v.constant, v.default with
  | some constant, _ => return r.set key constant
  | none, some default => d.assignExpr scope v key r ⟨default.expr, default.origin⟩
  | none, none =>
    let visible := (← get).scopes.lookup scope v.name
    match visible.filter fun _ => byName, d.below? v.name with
    | some value, _ => return r.set key (v.coerce value)
    | none, some t => nested t r (key ++ ".")
    | none, none => return r

/-- Stores what the fields of a type start with, under keys that start with `front`. Lists start
empty. -/
def defaults (scope : ScopeId) (d : TypeDef) (r : Record) (front : String) : Update Record :=
  d.fields.foldlM
    (fun r field =>
      if field.isRepeatable then return r.ensureList (front ++ field.name)
      else
        let byName := field.synthesized && front.isEmpty
        field.parts.foldlM
          (d.defaultValue (fun ⟨t, _⟩ r front => t.defaults scope r front) scope byName front) r)
    r
termination_by sizeOf d

/-- A fresh element of the list of a field. -/
def defaultEntry (scope : ScopeId) (field : Field) : Update Record :=
  field.parts.foldlM
    (d.defaultValue (fun t r front => t.val.defaults scope r front) scope false "") {}

/-- Fresh elements. -/
def defaultEntries (d : TypeDef) (scope : ScopeId) (field : Field) : Nat → Update (List Record)
  | 0 => return []
  | n + 1 => do
    let entry ← d.defaultEntry scope field
    let entries ← d.defaultEntries scope field n
    return entry :: entries

/-- Makes a list have an element. -/
def ensureEntry (scope : ScopeId) (field : Field) (key : String) (r : Record) : Update Record := do
  if (r.lastEntry? key).isSome then return r
  return r.pushEntry key (← d.defaultEntry scope field)

/-- Fills up a list to the lower bound of its field. -/
def padField (scope : ScopeId) (r : Record) (field : Field) : Update Record := do
  match field.repetition with
  | none => return r
  | some repetition =>
    let missing := (repetition.lower.toInt - (r.list field.name).length).toNat
    if missing = 0 then return r
    return r.appendEntries field.name (← d.defaultEntries scope field missing)

/-- Fills up all lists. -/
def pad (scope : ScopeId) (r : Record) : Update Record :=
  d.fields.foldlM (d.padField scope) r

/-- Values of a copied resource follow the new id and name where they are taken by name. -/
def refresh (scopes : Scopes) (scope : ScopeId) (r : Record) : Record :=
  let fields := d.fields.filter fun field => field.synthesized && !field.isRepeatable
  (fields.flatMap (·.values)).foldl
    (fun r v =>
      match scopes.lookup scope v.name with
      | some value => r.set v.name (v.coerce value)
      | none => r)
    r

end Rsrc.TypeDef

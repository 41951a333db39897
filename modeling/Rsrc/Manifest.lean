import Rsrc.Compilation
import Rsrc.Document.Json
import Rsrc.Document.Yaml

/-!
# Manifests

A manifest tells what a compilation has declared and how long each encoded resource is.
-/

namespace Rsrc

def Reference.toDocument (r : Reference) : Document :=
  .ofEntries [
    ("id", some (.integer r.id.toInt)),
    ("type_name", r.typeName.map .text),
    ("type_code", r.typeCode.map .text),
    ("container", r.container.map .text)]

/-- A value without its kind: a percentage is written like an integer. -/
def Value.toDocument : Value → Document
  | .integer n | .percentage n => .integer n.toInt
  | .decimal x => .decimal x
  | .string s => .text s
  | .reference r => r.toDocument
  | .boolean b => .bool b

mutual

/-- A record by its values and, if there are any, its lists. -/
def Record.toDocument : Record → Document
  | ⟨⟨values⟩, ⟨lists⟩⟩ =>
    .ofEntries [
      ("values", some (.map (values.map fun (key, v) => (key, v.toDocument)))),
      ("lists", if lists.isEmpty then none else some (.map (Record.listDocuments lists)))]

def Record.listDocuments : List (String × List Record) → List (String × Document)
  | [] => []
  | (field, elements) :: rest =>
    (field, .list (Record.elementDocuments elements)) :: Record.listDocuments rest

def Record.elementDocuments : List Record → List Document
  | [] => []
  | element :: rest => element.toDocument :: Record.elementDocuments rest

end

def Metadata.toDocument (m : Metadata) : Document :=
  .map (m.entries.map fun (key, value) => (key, .text value))

def Module.toDocument (m : Module) : Document :=
  .map [("name", .text m.name), ("types", .texts m.types)]

def TypeDef.toDocument (d : TypeDef) : Document :=
  .ofEntries [
    ("name", some (.text d.name)),
    ("code", some (.text d.code)),
    ("builtin", if d.isBuiltin then some (.bool true) else none),
    ("fields", some (.texts (d.fields.map (·.name)))),
    ("minimum_size", some (.integer d.minimumSize))]

/-- A resource whose encoding has a size. -/
def Resource.toDocument (r : Resource) (size : Nat) : Document :=
  .ofEntries [
    ("type", some (.text r.definition.name)),
    ("code", some (.text r.code)),
    ("id", some (.integer r.id.toInt)),
    ("name", if r.name.isEmpty then none else some (.text r.name)),
    ("container", r.container.map .text),
    ("size", some (.integer size)),
    ("values", some r.values.toDocument)]

end Rsrc

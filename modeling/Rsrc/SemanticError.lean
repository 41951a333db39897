import Rsrc.DefinitionError
import Rsrc.Format
import Rsrc.Value

/-!
# Semantic errors

Errors of constructs that are well-formed but mean nothing. They end only the construct.
-/

namespace Rsrc

/-- Why arguments do not name a resource. -/
inductive IdFault where
  | nothingToCopy
  | severalIds
  | givenTwice
  | anyId
  | otherType (reference typeName expected : String)
  deriving DecidableEq, Repr

def IdFault.message : IdFault → String
  | nothingToCopy => "`duplicate` needs the id of the resource to copy"
  | severalIds => "a resource takes a single id"
  | givenTwice => "the id is given twice"
  | anyId => "`#?` can not name a resource"
  | otherType reference typeName expected =>
    s!"{quoted reference} names type {quoted typeName}, not {quoted expected}"

inductive SemanticCause where
  | duplicateType (name : String)
  | unknownType (name : String)
  | notDeclarable (name : String)
  | definition (reason : DefinitionError)
  | evaluation (reason : EvalError)
  /-- No constructor takes so many arguments; `arities` are those of the constructors there are. -/
  | constructorArity (typeName : String) (found : Nat) (arities : List Nat)
  | valueCount (field : String) (expected found : Nat)
  | duplicateResource (resource : String)
  | unknownResource (resource : String)
  | invalidId (fault : IdFault)
  | danglingDecorator (name : String)
  | circularImport (cycle : String)
  | importNotFound (path : String)
  | duplicateModule (name : String)
  | formatMismatch (required active : Format)
  deriving DecidableEq, Repr

structure SemanticError where
  cause : SemanticCause
  site : Site
  deriving DecidableEq, Repr

/-- What a type takes as arguments of a resource. -/
def expectedArguments (typeName : String) (arities : List Nat) : String :=
  if arities.isEmpty then s!"{quoted typeName} takes an optional id followed by an optional name"
  else
    let counts := " or ".intercalate (arities.map toString)
    s!"{quoted typeName} takes an optional id and name, or {counts} arguments for its constructor"

namespace SemanticCause

def code : SemanticCause → String
  | duplicateType .. => "semantic::duplicate_type"
  | unknownType .. => "semantic::unrecognised_type"
  | notDeclarable .. => "semantic::not_declarable"
  | definition .. => "semantic::type_definition"
  | evaluation .. => "semantic::evaluation"
  | constructorArity .. => "semantic::constructor_arity"
  | valueCount .. => "semantic::value_count"
  | duplicateResource .. => "semantic::duplicate_resource"
  | unknownResource .. => "semantic::unknown_resource"
  | invalidId .. => "semantic::invalid_resource_id"
  | danglingDecorator .. => "semantic::dangling_decorator"
  | circularImport .. => "semantic::circular_import"
  | importNotFound .. => "semantic::import_not_found"
  | duplicateModule .. => "semantic::duplicate_module"
  | formatMismatch .. => "semantic::format_mismatch"

def message : SemanticCause → String
  | duplicateType name => s!"Attempted to duplicate type definition {quoted name}"
  | unknownType name => s!"Unrecognised type {quoted name}"
  | notDeclarable name => s!"Type {quoted name} can not be declared"
  | definition reason => reason.message
  | evaluation reason => reason.message
  | constructorArity typeName found _ =>
    s!"No constructor of {quoted typeName} accepts {found} arguments"
  | valueCount field expected found =>
    s!"Field {quoted field} takes {expected} values, but {found} were given"
  | duplicateResource resource => s!"Resource {resource} has already been declared"
  | unknownResource resource => s!"Resource {resource} does not exist"
  | invalidId fault => s!"Invalid resource id: {fault.message}"
  | danglingDecorator name => s!"Decorator `@{name}` is not attached to anything"
  | circularImport cycle => s!"Circular import detected: {cycle}"
  | importNotFound path => s!"Could not find import {quoted path}"
  | duplicateModule name => s!"Module {quoted name} is already defined"
  | formatMismatch required active =>
    s!"This file requires the {quoted required.name} format, " ++
      s!"but {quoted active.name} is active"

def help : SemanticCause → Option String
  | duplicateType .. => some "Type names must be unique within a compilation."
  | unknownType .. => some "Types must be defined (or imported) before they are used."
  | constructorArity typeName _ arities => some (expectedArguments typeName arities)
  | duplicateResource .. => some "Use `override` to replace an existing resource."
  | danglingDecorator .. =>
    some ("Decorators apply to the construct that follows them; " ++
      "move it before a type, field, template or resource.")
  | circularImport .. =>
    some "Break the cycle by moving shared definitions into a separate file."
  | importNotFound .. =>
    some ("Imports resolve relative to the importing file, " ++
      "then through the configured search paths.")
  | _ => none

def remark : SemanticCause → String
  | duplicateType name => s!"{quoted name} is already defined"
  | unknownType .. => "no type with this name has been registered"
  | notDeclarable .. => "this type is marked @no_declaration"
  | definition .. | valueCount .. | invalidId .. => "here"
  | evaluation .. => "while evaluating this"
  | constructorArity .. => "resource arguments"
  | duplicateResource .. => "second declaration"
  | unknownResource .. => "referenced here"
  | danglingDecorator .. => "nothing follows this decorator"
  | circularImport .. => "this import closes the cycle"
  | importNotFound .. => "imported here"
  | duplicateModule .. => "redefined here"
  | formatMismatch .. => "format requirement"

end SemanticCause

def SemanticError.report (e : SemanticError) : Report :=
  { code := e.cause.code
    message := e.cause.message
    help := e.cause.help
    label := some ⟨e.cause.remark, e.site⟩ }

end Rsrc

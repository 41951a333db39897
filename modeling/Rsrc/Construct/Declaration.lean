import Rsrc.Construct.Parse
import Rsrc.Resource.Block

/-!
# Declarations

A declaration holds resource blocks of one type.
-/

namespace Rsrc.Parse

/-- Reads the type that is declared, and the container if one is given. -/
def declaredType : Parse (Option String × Lexeme) := do
  let first ← Reading.any
  match first.kind with
  | .string =>
    Reading.skip LexemeKind.dot
    return (some first.text, ← Reading.identifier)
  | .identifier =>
    if ← Reading.accept LexemeKind.dot then return (some first.text, ← Reading.identifier)
    return (none, first)
  | _ => unexpected first "a type name"

/-- Reads an assignment and carries it out. -/
def assignment (d : TypeDef) (scope : ScopeId) (r : Record) : Parse Record := do
  match ← claim with
  | none => return r
  | some _ =>
    let some target := (← cursor).peek | fail "an assignment"
    let path ← Reading.path
    Reading.skip LexemeKind.equals
    let operands ← items operand
    Reading.skip LexemeKind.semicolon
    d.assign scope target (operands.map fun (expr, origin) => ⟨expr, origin⟩) r ""
      (path.splitOn ".")

/-- Reads a decorator or an assignment. -/
def blockItem (d : TypeDef) (scope : ScopeId) (r : Record) : Parse Record := do
  if ← isAt LexemeKind.decorator then
    decorator
    return r
  else assignment d scope r

/-- Reads a resource block and stores its resource. -/
def resourceBlock (d : TypeDef) (container : Option String) : Parse Unit := do
  match ← claim with
  | none => return
  | some _ =>
    let keyword ← Reading.identifier
    let some kind := BlockKind.ofKeyword? keyword.text
      | unexpected keyword "`new`, `override` or `duplicate`"
    let arguments ← if ← isAt LexemeKind.leftParen then arguments else pure []
    let plan ← kind.plan d container keyword (arguments.map fun (value, origin) => ⟨value, origin⟩)
    let scope ← plan.openScope
    let r ← plan.initial d scope keyword
    Reading.skip LexemeKind.leftBrace
    let r ← toBrace (blockItem d scope) r
    closeBlock
    plan.finish d scope keyword r

/-- Reads a decorator or a resource block. -/
def declarationItem (d : TypeDef) (container : Option String) : Parse Unit := do
  if ← isAt LexemeKind.decorator then decorator else guarded (resourceBlock d container)

/-- Reads a declaration. -/
def declaration : Parse Unit := do
  match ← claim with
  | none => return
  | some _ =>
    Reading.skip (.keyword "declare")
    let (container, name) ← declaredType
    Reading.skip LexemeKind.leftBrace
    let some d := (← session).typeNamed? name.text | Update.reject name (.unknownType name.text)
    if !d.isDeclarable then Update.reject name (.notDeclarable name.text)
    if d.decorators.has "deprecated" then
      Update.note .warn s!"{name.location}: type {quoted name.text} is deprecated"
    toBrace (fun () => declarationItem d container) ()
    closeBlock

end Rsrc.Parse

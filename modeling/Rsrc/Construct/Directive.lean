import Rsrc.Construct.Parse

/-!
# Directives

Directives import files, define names, choose the format and the output, print values and tell facts
about the project.
-/

namespace Rsrc.Parse

/-- How the import of a text is carried out. -/
abbrev Importer := Lexeme → Parse Unit

/-- Reads a name. -/
def name : Parse String := do
  let l ← Reading.any
  match l.kind with
  | .identifier | .string => return l.text
  | _ => unexpected l "a name"

/-- Reads a format and sets or demands it. -/
def formatDirective : Parse Unit := do
  let demanded ← Reading.accept (.keyword "requires")
  if !demanded then discard (Reading.accept (.keyword "set"))
  let name ← Reading.identifier
  let some format := Format.ofName? name.text | unexpected name "`extended`, `classic` or `rez`"
  if demanded then
    let active := (← session).format
    if active ≠ format then Update.reject name (.formatMismatch format active)
  else modifySession (·.setFormat format)

/-- Reads where the archive goes. The first path that is given wins; it is relative to the file that
names it. -/
def outputDirective : Parse Unit := do
  let target ← Reading.one LexemeKind.string
  modifySession fun s =>
    if s.output.isSome then s else { s with output := some (s.besideCurrent ⟨target.text⟩) }

/-- Reads an expression and prints its value. -/
def echoDirective (directive : Lexeme) : Parse Unit := do
  let e ← Expr.read
  let value ← Update.evaluate directive (e.eval Scopes.rootId)
  Update.note .info s!"{directive.location}: {value.display}"

/-- Reads a fact about the project. -/
def metadataDirective (directive : Lexeme) : Parse Unit := do
  let value ← Reading.one LexemeKind.string
  match (← session).metadata.set? directive.text value.text with
  | some metadata => modifySession fun s => { s with metadata }
  | none =>
    let name := quoted ("@" ++ directive.text)
    Update.note .warn s!"{directive.location}: {name} is not handled"

/-- Reads what belongs to a directive. -/
def directiveBody (importer : Importer) (directive : Lexeme) : Parse Unit := do
  match directive.text with
  | "import" => importer (← Reading.one LexemeKind.string)
  | "define" =>
    let name ← name
    modifySession fun s => { s with definitions := s.definitions.insert name () }
  | "format" => formatDirective
  | "out" => outputDirective
  | "echo" => echoDirective directive
  | _ => metadataDirective directive

/-- Reads a directive. -/
def directive (importer : Importer) : Parse Unit := do
  match ← claim with
  | none => return
  | some _ =>
    let directive ← Reading.one LexemeKind.directive
    directiveBody importer directive
    Reading.skip LexemeKind.semicolon

end Rsrc.Parse

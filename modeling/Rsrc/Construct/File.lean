import Rsrc.Construct.Declaration
import Rsrc.Construct.Directive
import Rsrc.Construct.TypeBlock

/-!
# Files

A file is a sequence of constructs; modules hold constructs as well.
-/

namespace Rsrc.Parse

/-- Reads a module, where `body` reads its constructs up to the closing brace. -/
def moduleBlock (body : Parse Unit) : Parse Unit := do
  match ← claim with
  | none => return
  | some decorators =>
    Reading.skip (.keyword "module")
    let name ← Reading.identifier
    Reading.skip LexemeKind.leftBrace
    let s ← session
    let some entered := s.enterModule? { name := name.text, decorators, origin := some name }
      | Update.reject name (.duplicateModule name.text)
    modifySession fun _ => entered
    andFinally body (·.leaveModule s.currentModule)
    closeBlock

/-- Reads one construct, where `body` reads the constructs of a module. -/
def construct (importer : Importer) (body : Parse Unit) : Parse Unit := do
  let c ← cursor
  if c.isAt LexemeKind.directive then directive importer
  else if c.isAt LexemeKind.decorator then decorator
  else if c.isAt (.keyword "module") then moduleBlock body
  else if c.isAt (.keyword "type") then typeBlock
  else if c.isAt (.keyword "declare") then declaration
  else fail "a directive, a decorator, `module`, `type` or `declare`"

/-- Reads the constructs of a module that has at most `depth` modules inside one another. -/
def moduleBody (importer : Importer) : (depth : Nat) → Parse Unit
  | 0 => fail "`\x7d`"
  | depth + 1 => toBrace (fun () => guarded (construct importer (moduleBody importer depth))) ()

/-- Reads constructs up to the end of the file, at most `limit` of them. -/
def constructsWithin (importer : Importer) : (limit : Nat) → Parse Unit
  | 0 => return
  | limit + 1 => do
    if (← cursor).finished then return
    guarded (construct importer (moduleBody importer (← cursor).unread))
    constructsWithin importer limit

/-- Reads a file. -/
def file (importer : Importer) : Parse Unit := do
  constructsWithin importer (← cursor).unread
  if let some failure := dangling? (← session) then
    modifySession fun s => { s with pending := [] }.record failure

end Rsrc.Parse

namespace Rsrc

/-- Reads a source into a session. -/
def parseSource (importer : Parse.Importer) (source : SourceFile) : Update Unit := fun s =>
  match Cursor.ofSource source with
  | .error e => .error (.lexical e) s
  | .ok cursor =>
    match Parse.file importer { session := s, cursor } with
    | .ok () st => .ok () st.session
    | .error failure st => .error failure st.session

end Rsrc

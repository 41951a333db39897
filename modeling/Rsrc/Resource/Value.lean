import Rsrc.Update

/-!
# Values of a resource

How the value of one label is made from an expression. A call of the type that is nested there runs
a constructor of that type; a value with joined parts splits a mask among them.
-/

namespace Rsrc

/-- An expression on the right of an assignment, and its first lexeme. -/
structure Operand where
  expr : Expr
  origin : Lexeme

/-- Brings a value closer to the descriptor of its label. -/
def FieldValue.coerce (v : FieldValue) (value : Value) : Value :=
  match v.descriptor with
  | some descriptor => descriptor.coerce value
  | none => value

namespace TypeDef

/-- Brings a value that a constructor has bound closer to what its path stands for. -/
def coercePath (d : TypeDef) (path : String) (value : Value) : Value :=
  match d.targetOf? (path.splitOn ".") with
  | none => value
  | some target =>
    if target.inner.isEmpty then (target.container?.map (·.coerce value)).getD value else value

/-- Runs the constructor for the arguments in a fresh scope, and gives what it has bound. -/
def construct (d : TypeDef) (scope : ScopeId) (origin : Lexeme) (arguments : List Value) :
    Update (List (String × Value)) := do
  let some c := d.constructor? arguments.length
    | .reject origin (.constructorArity d.name arguments.length (d.constructors.map (·.arity)))
  .inScope scope fun inner => do
    let _ ← .evaluate origin (c.routine.execute Scopes.call inner arguments)
    return (← get).scopes.localsBehind inner Constructor.self

/-- Stores a nested value that is made by a constructor of its type. -/
def constructInto (nested : TypeDef) (scope : ScopeId) (key : String) (r : Record) (origin : Lexeme)
    (arguments : List Expr) : Update Record := do
  let values ← arguments.mapM fun e => Update.evaluate origin (e.eval scope)
  let written ← nested.construct scope origin values
  return written.foldl
    (fun r (path, value) => r.set (key ++ "." ++ path) (nested.coercePath path value)) r

/-- Stores the value of an expression for a label, which can use the label's symbols. -/
def assignExpr (d : TypeDef) (scope : ScopeId) (v : FieldValue) (key : String) (r : Record)
    (operand : Operand) : Update Record := do
  let general : Update Record := do
    let value ← Update.inScope scope fun inner => do
      Update.bindSymbols inner v.symbols
      Update.evaluate operand.origin (operand.expr.eval inner)
    return r.set key (v.coerce value)
  match d.nested? v.name, operand.expr with
  | some nested, .call name arguments =>
    if name = nested.name then nested.constructInto scope key r operand.origin arguments
    else general
  | _, _ => general

end TypeDef

namespace FieldValue

/-- The expression reads a symbol of the value. -/
def isUsedBy (v : FieldValue) (e : Expr) : Bool :=
  v.symbols.any fun symbol => e.names.contains symbol.name

/-- The value of an expression for one of several joined parts: the symbols of all others are
zero. -/
def partValue (part : FieldValue) (parts : List FieldValue) (scope : ScopeId) (operand : Operand) :
    Update Value :=
  .inScope scope fun inner => do
    let others := parts.filter (·.name != part.name)
    let zeros := others.flatMap fun other => other.symbols.map fun symbol => (symbol.name, .integer 0)
    Update.modifyScopes (·.defineAll inner zeros)
    Update.bindSymbols inner part.symbols
    Update.evaluate operand.origin (operand.expr.eval inner)

end FieldValue

namespace TypeDef

/-- Stores an operand for a value and what is joined to it, under keys that start with `front`. The
parts whose symbols it uses get a value, or else the first part does. -/
def assignValue (d : TypeDef) (scope : ScopeId) (v : FieldValue) (front : String) (r : Record)
    (operand : Operand) : Update Record :=
  let used := v.parts.filter (·.isUsedBy operand.expr)
  if v.joined.isEmpty || used.isEmpty then d.assignExpr scope v (front ++ v.name) r operand
  else used.foldlM
    (fun r part => do
      let value ← part.partValue v.parts scope operand
      return r.set (front ++ part.name) (part.coerce value)) r

end TypeDef

end Rsrc

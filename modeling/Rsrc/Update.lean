import Rsrc.Eval
import Rsrc.Session

/-!
# Updates of a session

Computations that change a session and may fail. A failure keeps what was changed before it.
-/

namespace Rsrc

abbrev Update := EStateM Failure Session

namespace Update

variable {α : Type}

/-- Fails at a lexeme. -/
def reject (origin : Lexeme) (cause : SemanticCause) : Update α :=
  throw (.semantic ⟨cause, origin.site⟩)

/-- The parts of a definition fit together, or the failure is at the lexeme. -/
def define (origin : Lexeme) (result : Except DefinitionError α) : Update α :=
  match result with
  | .ok a => return a
  | .error e => reject origin (.definition e)

/-- Runs a computation on the scopes of the session; it is to blame on the lexeme. -/
def evaluate (origin : Lexeme) (computation : Eval α) : Update α := fun s =>
  match computation s.scopes with
  | .ok a scopes => .ok a { s with scopes }
  | .error e scopes => .error (.semantic ⟨.evaluation e, origin.site⟩) { s with scopes }

def modifyScopes (f : Scopes → Scopes) : Update Unit :=
  modify fun s => { s with scopes := f s.scopes }

def note (level : LogLevel) (text : String) : Update Unit := modify (·.note level text)

/-- Runs a computation in a fresh scope, which is gone afterwards. -/
def inScope (parent : ScopeId) (computation : ScopeId → Update α) : Update α := fun s =>
  let scope := s.scopes.next
  match computation scope { s with scopes := s.scopes.push .shadow parent } with
  | .ok a s => .ok a { s with scopes := s.scopes.release scope }
  | .error e s => .error e { s with scopes := s.scopes.release scope }

/-- Binds the symbols of a value one after another; each can use those before it. -/
def bindSymbols (scope : ScopeId) (symbols : List FieldSymbol) : Update Unit :=
  symbols.forM fun symbol => do
    let value ← evaluate symbol.value.origin (symbol.value.expr.eval scope)
    modifyScopes (·.define scope symbol.name value)

end Update

end Rsrc

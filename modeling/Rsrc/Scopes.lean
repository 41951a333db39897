import Rsrc.Builtin
import Rsrc.Dict
import Rsrc.Expr
import Rsrc.Text.Front

/-!
# Scopes

Scopes form a stack of frames. A frame points at its parent by position; what a frame does not bind
is looked up in its parent. Releasing a scope drops every scope made after it.
-/

namespace Rsrc

/-- A name that a call copies back to its caller. -/
inductive Watch where
  | exact (name : String)
  /-- Every name that starts with the text. -/
  | front (text : String)
  deriving DecidableEq, Repr

def Watch.covers : Watch → String → Bool
  | exact watched, name => watched == name
  | front text, name => Text.startsWith text name

inductive RoutineBody where
  /-- A function of the arguments that has no access to scopes. -/
  | native (run : List Value → Except EvalError Value)
  | script (statements : List Statement)

structure Routine where
  name : String
  parameters : List String
  body : RoutineBody
  watches : List Watch := []

namespace Routine

def arity (r : Routine) : Nat := r.parameters.length

def ofBuiltin (f : Builtin) : Routine :=
  { name := f.name, parameters := f.parameters, body := .native f.apply }

/-- A call copies the name back to its caller. -/
def isWatched (r : Routine) (name : String) : Bool := r.watches.any (·.covers name)

end Routine

inductive ScopeKind where
  | root
  /-- The body of a construct. -/
  | shadow
  /-- One call of a routine. -/
  | subscope
  deriving DecidableEq, Repr

/-- The position of a frame in the stack. -/
structure ScopeId where
  index : Nat
  deriving DecidableEq, Repr, Inhabited

structure Frame where
  parent : Option ScopeId
  kind : ScopeKind
  bindings : Dict Value := {}
  routines : Dict Routine := {}

/-- The stack of frames, the root first. -/
structure Scopes where
  frames : List Frame

namespace Scopes

variable (s : Scopes)

def rootId : ScopeId := ⟨0⟩

/-- The root alone, which knows the built-in routines. -/
def initial : Scopes :=
  let routines := Dict.ofList (Builtin.all.map fun f => (f.name, Routine.ofBuiltin f))
  ⟨[{ parent := none, kind := .root, routines }]⟩

def depth : Nat := s.frames.length

def frame? (scope : ScopeId) : Option Frame := s.frames[scope.index]?

def kind? (scope : ScopeId) : Option ScopeKind := (s.frame? scope).map (·.kind)

def parent? (scope : ScopeId) : Option ScopeId := (s.frame? scope).bind (·.parent)

/-- The scope that the next frame will have. -/
def next : ScopeId := ⟨s.depth⟩

def push (kind : ScopeKind) (parent : ScopeId) : Scopes :=
  ⟨s.frames ++ [{ parent := some parent, kind }]⟩

/-- Keeps the first `depth` frames, and the root in any case. -/
def truncate (depth : Nat) : Scopes := ⟨s.frames.take (max depth 1)⟩

/-- Drops a scope and all made after it; the root stays. -/
def release (scope : ScopeId) : Scopes := s.truncate scope.index

/-- Changes a frame, if it is there. -/
def modify (s : Scopes) (scope : ScopeId) (f : Frame → Frame) : Scopes :=
  ⟨s.frames.modify scope.index f⟩

def define (scope : ScopeId) (name : String) (value : Value) : Scopes :=
  s.modify scope fun f => { f with bindings := f.bindings.insert name value }

def defineAll (scope : ScopeId) (bindings : List (String × Value)) : Scopes :=
  bindings.foldl (fun s (name, value) => s.define scope name value) s

def addRoutine (scope : ScopeId) (r : Routine) : Scopes :=
  s.modify scope fun f => { f with routines := f.routines.insert r.name r }

/-! ### Looking up the chain -/

/-- The first answer on the chain of parents, which has at most `length` frames. -/
def findUp {α : Type} (s : Scopes) (answer : Frame → Option α) :
    (length : Nat) → (scope : ScopeId) → Option α
  | 0, _ => none
  | length + 1, scope =>
    match s.frame? scope with
    | none => none
    | some frame =>
      match answer frame, frame.parent with
      | some a, _ => some a
      | none, some parent => s.findUp answer length parent
      | none, none => none

/-- The value of a name as seen from a scope. -/
def lookup (scope : ScopeId) (name : String) : Option Value :=
  s.findUp (·.bindings.get? name) s.depth scope

/-- The routine of a name as seen from a scope. -/
def routine? (scope : ScopeId) (name : String) : Option Routine :=
  s.findUp (·.routines.get? name) s.depth scope

def resolve (scope : ScopeId) (name : String) : Except EvalError Value :=
  match s.lookup scope name with
  | some value => .ok value
  | none => .error (.unknownVariable name)

/-- Binds a name that is not visible yet. -/
def defineIfAbsent (scope : ScopeId) (name : String) (value : Value) : Scopes :=
  if (s.lookup scope name).isNone then s.define scope name value else s

/-! ### Names bound in one scope -/

def locals (scope : ScopeId) : Dict Value :=
  ((s.frame? scope).map (·.bindings)).getD {}

/-- The local names that start with `front`, without it, and their values. -/
def localsBehind (scope : ScopeId) (front : String) : List (String × Value) :=
  (s.locals scope).entries.filterMap fun (name, value) =>
    (Text.stripFront? front name).map (·, value)

/-- Forgets the local names that start with `front`. -/
def dropLocals (scope : ScopeId) (front : String) : Scopes :=
  s.modify scope fun f =>
    { f with bindings := ⟨f.bindings.entries.filter fun (name, _) => !Text.startsWith front name⟩ }

end Scopes

end Rsrc

import Rsrc.Failure
import Rsrc.Resource
import Std.Data.HashSet

/-!
# Sessions

A session is what one compilation has gathered so far: types, modules, resources, scopes, and the
failures of constructs. Imported files add to the session of the file that imports them.
-/

namespace Rsrc

/-- A block of constructs under a name, with the names of the types defined in it. -/
structure Module where
  name : String
  types : List String := []
  decorators : Decorators := {}
  origin : Option Lexeme := none

/-- Facts about the project. -/
structure Metadata where
  values : Dict String := {}

namespace Metadata

/-- What can be told about a project, in the order in which it is listed. -/
def keys : List String :=
  ["project", "author", "version", "license", "copyright", "email", "website"]

/-- Sets a fact, if the key is one of those there are. -/
def set? (m : Metadata) (key value : String) : Option Metadata :=
  if keys.contains key then some ⟨m.values.insert key value⟩ else none

def entries (m : Metadata) : List (String × String) :=
  keys.filterMap fun key => (m.values.get? key).map (key, ·)

end Metadata

inductive LogLevel where
  | info
  | warn
  deriving DecidableEq, Repr

structure LogEntry where
  level : LogLevel
  text : String
  deriving DecidableEq, Repr

structure Session where
  /-- In the order of their definitions. -/
  types : List TypeDef := []
  modules : List Module := []
  /-- The position of the module whose constructs are being read. -/
  currentModule : Option Nat := none
  /-- Decorators that wait for a construct. -/
  pending : List Decorator := []
  scopes : Scopes := .initial
  resources : List Resource := []
  definitions : Dict Unit := {}
  metadata : Metadata := {}
  output : Option Path := none
  searchPaths : List Path := []
  format : Format := .extended
  /-- The host has chosen the format. -/
  formatLocked : Bool := false
  /-- The files being read, the innermost first. -/
  importStack : List Path := []
  /-- The files that have been read. -/
  imported : List Path := []
  failures : List Failure := []
  log : List LogEntry := []

namespace Session

variable (s : Session)

def ofOptions (o : Options) : Session :=
  { definitions := o.definitions
    searchPaths := o.searchPaths
    output := o.output
    format := o.format.getD .extended
    formatLocked := o.format.isSome }

/-! ### Failures and messages -/

def record (failure : Failure) : Session :=
  { s with failures := s.failures ++ [failure] }

def note (level : LogLevel) (text : String) : Session :=
  { s with log := s.log ++ [⟨level, text⟩] }

/-! ### Formats -/

/-- Sets the format, unless the host has chosen one. -/
def setFormat (format : Format) : Session :=
  if s.formatLocked then s else { s with format }

/-! ### Types and modules -/

def typeNamed? (name : String) : Option TypeDef := s.types.find? (·.name == name)

/-- Adds a type under a new name, also to the current module. -/
def register? (d : TypeDef) : Option Session :=
  if (s.typeNamed? d.name).isSome then none
  else
    let modules := match s.currentModule with
      | none => s.modules
      | some index => s.modules.modify index fun m => { m with types := m.types ++ [d.name] }
    some { s with types := s.types ++ [d], modules }

/-- Adds a module under a new name and makes it the current one. -/
def enterModule? (m : Module) : Option Session :=
  if s.modules.any (·.name == m.name) then none
  else some { s with modules := s.modules ++ [m], currentModule := some s.modules.length }

def leaveModule (previous : Option Nat) : Session :=
  { s with currentModule := previous }

/-! ### Resources -/

/-- The smallest id that is given out by itself. -/
def firstId : Int64 := 128

/-- The first id from `id` on that is not taken, among `n + 1` of them. -/
def freeIdFrom (taken : Std.HashSet Int64) : Nat → Int64 → Int64
  | 0, id => id
  | n + 1, id => if taken.contains id then freeIdFrom taken n (id + 1) else id

/-- The ids that a type uses in a container. -/
def takenIds (typeName : String) (container : Option String) : List Int64 :=
  (s.resources.filter fun r =>
    r.reference.typeName == some typeName && r.container == container).map (·.id)

/-- The smallest free id of a type in a container. -/
def nextId (typeName : String) (container : Option String) : Int64 :=
  let taken := s.takenIds typeName container
  freeIdFrom (Std.HashSet.ofList taken) taken.length firstId

def resource? (slot : Reference) : Option Resource :=
  s.resources.find? (·.occupies slot)

/-- Stores a resource in its slot, in place of one that is there. -/
def store (r : Resource) : Session :=
  match s.resources.findIdx? (·.occupies r.reference) with
  | some index => { s with resources := s.resources.set index r }
  | none => { s with resources := s.resources ++ [r] }

/-! ### Imports -/

/-- Starts to read a file, or gives the cycle that this would close. -/
def beginImport (path : Path) : Except String Session :=
  if s.importStack.any (·.same path) then
    let cycle := (s.importStack.takeWhile (!·.same path)).reverse
    let first := s.importStack.filter (·.same path)
    .error (" -> ".intercalate ((first.take 1 ++ cycle ++ [path]).map Path.shortName))
  else .ok { s with importStack := path :: s.importStack }

/-- Ends the reading of the innermost file. -/
def endImport : Session :=
  match s.importStack with
  | [] => s
  | path :: rest =>
    { s with
      importStack := rest
      imported := if s.imported.any (·.same path) then s.imported else path :: s.imported }

def wasImported (path : Path) : Bool := s.imported.any (·.same path)

def currentFile? : Option Path := s.importStack.head?

/-- A path as seen from the file being read. -/
def besideCurrent (path : Path) : Path :=
  match s.currentFile?.bind Path.parent? with
  | some directory => directory.join path
  | none => path

end Session

end Rsrc

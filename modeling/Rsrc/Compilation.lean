import Rsrc.Archive.Output
import Rsrc.Encoding.Encode
import Rsrc.Prelude

/-!
# Compilations

A compilation reads sources into a session and encodes the resources that they declare into an
archive. It fails if anything has failed, and then names all failures.
-/

namespace Rsrc

structure Compilation where
  types : List TypeDef
  resources : List Resource
  metadata : Metadata
  modules : List Module
  format : Format
  output : Option Path
  /-- One entry for every resource, in the same order. -/
  archive : Archive

/-- What a compilation has come to, and the messages on the way. -/
structure Outcome where
  result : Except Failure Compilation
  log : List LogEntry := []

/-- What comes of a session, if it could be prepared. -/
def Outcome.ofPrepared (prepared : Except Failure Session) (next : Session → Outcome) : Outcome :=
  match prepared with
  | .error failure => { result := .error failure }
  | .ok s => next s

namespace Resource

/-- A resource with its encoding as an entry of an archive. The container is kept as an attribute. -/
def toEntry (r : Resource) (data : List UInt8) : ArchiveEntry :=
  { code := r.code
    id := r.id
    name := r.name
    data := data.toByteArray
    attributes := match r.container with
      | some container => Dict.empty.insert "container" container
      | none => {} }

/-- Encodes a resource and adds it to an archive. -/
def archive (a : Archive) (r : Resource) : Except Failure Archive :=
  match r.encode a.format with
  | .error e => .error (.encoding e)
  | .ok data =>
    match a.add (r.toEntry data) with
    | .error e => .error (.archive e)
    | .ok a => .ok a

end Resource

namespace Session

/-- Adds resources to an archive. Those that fail are left out, and their failures are kept. -/
def archiveAll (a : Archive) : List Resource → Archive × List Failure
  | [] => (a, [])
  | r :: rest =>
    match r.archive a with
    | .ok a => archiveAll a rest
    | .error failure =>
      let (a, failures) := archiveAll a rest
      (a, failure :: failures)

/-- Encodes what a session has gathered, unless something has failed. -/
def finish (s : Session) : Outcome :=
  match Failure.ofList s.failures with
  | some failure => { result := .error failure, log := s.log }
  | none =>
    let (archive, failures) := archiveAll { format := s.format } s.resources
    match Failure.ofList failures with
    | some failure => { result := .error failure, log := s.log }
    | none =>
      let text := s!"compiled {s.types.length} types and {s.resources.length} resources " ++
        s!"({s.format.name} format)"
      { result := .ok {
          types := s.types
          resources := s.resources
          metadata := s.metadata
          modules := s.modules
          format := s.format
          output := s.output
          archive }
        log := (s.note .info text).log }

/-- Finishes after an update; a failure that has ended it is recorded. -/
def finishAfter (u : Update Unit) (s : Session) : Outcome :=
  match u s with
  | .ok () s => s.finish
  | .error failure s => (s.record failure).finish

end Session

namespace FileTree

/-- Compiles a source text. Imports start from the working directory. -/
def compile (t : FileTree) (o : Options) (source : SourceFile) : Outcome :=
  Outcome.ofPrepared (Session.prepared o) fun s => s.finishAfter (t.parse source)

/-- Compiles a file. Imports start from its directory. -/
def compileFile (t : FileTree) (o : Options) (path : Path) : Outcome :=
  let unreadable (message : String) : Outcome :=
    { result := .error (.unreadable path.text message) }
  match t.canonical path with
  | .error e => unreadable e.message
  | .ok found =>
    match t.readText found with
    | .error e => unreadable e.message
    | .ok contents =>
      Outcome.ofPrepared (Session.prepared o) fun s =>
        match s.beginImport found with
        | .error cycle => { result := .error (.unreadable found.text s!"import cycle {cycle}") }
        | .ok s => s.finishAfter (finishingImport (t.parse { name := found.text, contents }))

/-- Writes an archive to a file, unless its format can not hold it. -/
def writeArchive (t : FileTree) (a : Archive) (p : Path) : Except ArchiveError FileTree :=
  match a.toBytes with
  | .error e => .error e
  | .ok bytes =>
    match t.write p bytes with
    | .error e => .error (.unwritable p.text e.message)
    | .ok t => .ok t

end FileTree

namespace Compilation

def typeNamed? (c : Compilation) (name : String) : Option TypeDef :=
  c.types.find? (·.name == name)

/-- The resource of a type with an id that is in no container. -/
def resource? (c : Compilation) (typeName : String) (id : Int64) : Option Resource :=
  c.resources.find? fun r => r.definition.name == typeName && r.id == id && r.container.isNone

end Compilation

end Rsrc

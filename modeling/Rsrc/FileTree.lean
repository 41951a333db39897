import Rsrc.Path
import Rsrc.Text.Utf8

/-!
# File trees

A tree of directories and files, with a working directory from which relative paths start. Places in
the tree are lists of names from the root.
-/

namespace Rsrc

/-- Why a path can not be used. -/
inductive FileError where
  | missing
  | notDirectory
  | isDirectory
  | nameTooLong
  | nulInName
  | notText
  deriving DecidableEq, Repr

def FileError.message : FileError → String
  | missing => "No such file or directory (os error 2)"
  | notDirectory => "Not a directory (os error 20)"
  | isDirectory => "Is a directory (os error 21)"
  | nameTooLong => "File name too long (os error 36)"
  | nulInName => "file name contained an unexpected NUL byte"
  | notText => "stream did not contain valid UTF-8"

inductive FileNode where
  | directory
  | file (contents : ByteArray)

structure FileTree where
  nodes : List (List String × FileNode) := [([], .directory)]
  working : List String := []

namespace FileTree

variable (t : FileTree)

def node? (place : List String) : Option FileNode := t.nodes.lookup place

def put (place : List String) (node : FileNode) : FileTree :=
  { t with nodes := t.nodes.filter (·.1 != place) ++ [(place, node)] }

/-- Adds the directory at a place, if nothing is there. -/
def addDirectory (place : List String) : FileTree :=
  if (t.node? place).isSome then t else t.put place .directory

/-- The directories above a place, the root first. -/
def above (place : List String) : List (List String) :=
  (List.range place.length).map fun n => place.take n

/-- Adds a directory and those above it. -/
def makeDirectory (place : List String) : FileTree :=
  (above place ++ [place]).foldl addDirectory t

/-- Adds a file and the directories above it. -/
def addFile (place : List String) (contents : ByteArray) : FileTree :=
  ((above place).foldl addDirectory t).put place (.file contents)

/-- The bytes that a name may have. -/
def nameLimit : Nat := 0xFF

/-- The bytes that a path may have. -/
def pathLimit : Nat := 0xFFF

/-- Follows the segments of a path from a place. -/
def walk (t : FileTree) (place : List String) : List String → Except FileError (List String)
  | [] => .ok place
  | segment :: rest =>
    match t.node? place with
    | none => .error .missing
    | some (.file _) => .error .notDirectory
    | some .directory =>
      if segment = "" || segment = "." then t.walk place rest
      else if segment = ".." then t.walk place.dropLast rest
      else if nameLimit < segment.utf8ByteSize then .error .nameTooLong
      else
        let next := place ++ [segment]
        if (t.node? next).isSome then t.walk next rest else .error .missing

/-- The place that a path leads to. -/
def locate (p : Path) : Except FileError (List String) :=
  if p.text.isEmpty then .error .missing
  else if p.text.toList.contains '\x00' then .error .nulInName
  else if pathLimit < p.text.utf8ByteSize then .error .nameTooLong
  else t.walk (if p.isAbsolute then [] else t.working) p.segments

/-- A place as an absolute path. -/
def absolute (place : List String) : Path := ⟨"/" ++ "/".intercalate place⟩

/-- The absolute path of something that is there. -/
def canonical (p : Path) : Except FileError Path := absolute <$> t.locate p

def isFile (p : Path) : Bool :=
  match t.locate p with
  | .ok place =>
    match t.node? place with
    | some (.file _) => true
    | _ => false
  | .error _ => false

/-- The contents of a file. -/
def readBytes (p : Path) : Except FileError ByteArray := do
  match t.node? (← t.locate p) with
  | some (.file contents) => return contents
  | some .directory => throw .isDirectory
  | none => throw .missing

/-- The contents of a file as text. -/
def readText (p : Path) : Except FileError String := do
  match Text.decode? (← t.readBytes p).toList with
  | some text => return text
  | none => throw .notText

/-- The directory in which a path names a file. -/
def directoryOf (p : Path) : Path :=
  match p.parent? with
  | some parent => if parent.text.isEmpty then ⟨"."⟩ else parent
  | none => ⟨"."⟩

/-- The name under which a path stores a file. A path that ends in a slash or in points has none, even
where it leads to a file. -/
def newName (p : Path) : Except FileError String :=
  match p.segments.getLast? with
  | none | some "" | some "." | some ".." => .error .isDirectory
  | some name =>
    if name.toList.contains '\x00' then .error .nulInName
    else if nameLimit < name.utf8ByteSize then .error .nameTooLong
    else .ok name

/-- Writes a file in a directory that is there, in place of one of the same name. -/
def write (p : Path) (contents : ByteArray) : Except FileError FileTree := do
  let directory ← t.locate (directoryOf p)
  let name ← newName p
  match t.node? directory, t.node? (directory ++ [name]) with
  | some .directory, some .directory => throw .isDirectory
  | some .directory, _ => return t.put (directory ++ [name]) (.file contents)
  | _, _ => throw .notDirectory

end FileTree

end Rsrc

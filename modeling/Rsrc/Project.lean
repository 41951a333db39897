import Rsrc.Construct.File
import Rsrc.FileTree

/-!
# Projects

The files of a project can import one another. A file is looked for beside the file that imports it
and then on the search paths; it is read once.
-/

namespace Rsrc

variable (t : FileTree)

/-- The file that an import leads to. -/
def FileTree.importPath? (s : Session) (target : String) : Option Path :=
  let candidates := s.besideCurrent ⟨target⟩ :: s.searchPaths.map (·.join ⟨target⟩)
  (candidates.find? t.isFile).map fun found => (t.canonical found).toOption.getD found

/-- Reads a file into a session. -/
def FileTree.readInto (importer : Parse.Importer) (path : Path) : Update Unit :=
  match t.readText path with
  | .error e => throw (.unreadable path.text e.message)
  | .ok contents => parseSource importer { name := path.text, contents }

/-- Ends the reading of the innermost file; a failure that has ended it is recorded. -/
def finishingImport (u : Update Unit) : Update Unit := fun s =>
  match u s with
  | .ok () s => .ok () s.endImport
  | .error failure s => .ok () (s.endImport.record failure)

/-- Carries out imports that are at most `depth` deep inside one another. -/
def FileTree.importer (t : FileTree) : (depth : Nat) → Parse.Importer
  | 0, target => Update.reject target (.importNotFound target.text)
  | depth + 1, target => do
    let s ← Parse.session
    let some path := t.importPath? s target.text
      | Update.reject target (.importNotFound target.text)
    if s.wasImported path then return
    match s.beginImport path with
    | .error cycle => Update.reject target (.circularImport cycle)
    | .ok entered =>
      Parse.modifySession fun _ => entered.note .info s!"importing {path.text}"
      finishingImport (t.readInto (t.importer depth) path)

/-- How deep imports can be inside one another: no file is inside itself. -/
def FileTree.importLimit : Nat := t.nodes.length + 1

/-- Reads a source into a session, with the files that it imports. -/
def FileTree.parse (source : SourceFile) : Update Unit :=
  parseSource (t.importer t.importLimit) source

end Rsrc
